import Bitcoin.Proofs.Bind
import Bitcoin.Script.Machine

/-!
# Runs of the machine

A run ends because every step takes weight from the remaining commands. That measure is used once,
in `run_induction`; what is shown of a run afterwards is shown of no command and of one step in
front of a shorter run. Whether a machine succeeds from where it stands is `execute`.

* **`run_induction`**: what holds without commands, and before a step when it holds after, holds.
* **`cmds_run`**: a run leaves no command.
* **`history_cons`**: the commands that a run takes are the first one and those after its step.
* **`execute_eq_ok_iff`**: a machine succeeds when its run ends with a true element on top.
-/

namespace Bitcoin.Machine

theorem verdict_eq_ok_iff {m : Machine} :
    m.verdict = .ok () ↔ ∃ top s, m.stack = top :: s ∧ ScriptNumber.isTrue top = true := by
  obtain ⟨stack, alt, cmds⟩ := m
  cases stack with
  | nil =>
      constructor
      · intro h
        exact nomatch h
      · rintro ⟨top, s, hs, -⟩
        exact nomatch hs
  | cons top s =>
      show (if ScriptNumber.isTrue top then Except.ok () else _) = _ ↔ _
      constructor
      · intro h
        by_cases htop : ScriptNumber.isTrue top = true
        · exact ⟨top, s, rfl, htop⟩
        · rw [if_neg htop] at h
          exact nomatch h
      · rintro ⟨_, _, hs, htop⟩
        obtain ⟨rfl, rfl⟩ := List.cons.inj hs
        rw [if_pos htop]

/-- How a code fails when its operation does: it has failed, or it is known and refused. -/
def failure (op : Operation) (code : UInt8) : Script.Failure :=
  if op = .unsupported then .unsupported code else .opFailed code

variable [Digests] {mode : Redemption} {ctx : SpendContext}

/-- A code without an operation fails on every machine in the same way. -/
theorem perform_of_ofCode?_eq_none {code : UInt8} (h : Operation.ofCode? code = none) :
    ∃ e, ∀ m : Machine, m.perform ctx code = .error e := by
  by_cases hcode : code = Opcode.orElse ∨ code = Opcode.endIf
  · refine ⟨.opFailed code, fun m => ?_⟩
    rw [perform, h]
    exact if_pos hcode
  · refine ⟨.unknownOpcode code, fun m => ?_⟩
    rw [perform, h]
    exact if_neg hcode

/-- A code does what its operation does. -/
theorem perform_of_ofCode?_eq_some {code : UInt8} {op : Operation}
    (h : Operation.ofCode? code = some op) (m : Machine) :
    m.perform ctx code = (op.apply ctx m).mapError fun _ => failure op code := by
  rw [perform, h]
  by_cases hop : op = .unsupported
  · rw [hop]
    rfl
  · rw [failure, if_neg hop]
    split
    · next hnone => exact nomatch hnone
    · next hsome => exact absurd (Option.some.inj hsome) hop
    · next op' _ hsome =>
        obtain rfl := Option.some.inj hsome
        cases op.apply ctx m with
        | ok t => rfl
        | error t => rfl

theorem push_off (bs : Bytes) (m : Machine) :
    m.push .off bs = .ok { m with stack := bs :: m.stack } := by
  rw [push.eq_def]

/-- In front of anything but a script that locks to a script hash a push puts its bytes on the
    stack. -/
theorem push_of_scriptHash?_eq_none {m : Machine} (h : Script.scriptHash? m.cmds = none)
    (mode : Redemption) (bs : Bytes) : m.push mode bs = .ok { m with stack := bs :: m.stack } := by
  cases mode with
  | off => exact push_off bs m
  | on => rw [push.eq_def, h]

/-- In front of a script that locks to a script hash a push is taken for a script. -/
theorem push_on_of_scriptHash?_eq_some {m : Machine} {hash : Hash160}
    (h : Script.scriptHash? m.cmds = some hash) (bs : Bytes) :
    m.push .on bs = m.redeem hash bs := by
  rw [push.eq_def, h]

/-- What holds without commands, and before a step when it holds after, holds of every machine. -/
theorem run_induction (mode : Redemption) (ctx : SpendContext) {P : Machine → Prop}
    (nil : ∀ s alt, P ⟨s, alt, []⟩)
    (cons : ∀ s alt c rest, (∀ t, step mode ctx ⟨s, alt, rest⟩ c = .ok t → P t) →
      P ⟨s, alt, c :: rest⟩)
    (m : Machine) : P m := by
  -- on the weight: a command that a conditional or a redemption puts in front is paid for by the
  -- one that was taken
  induction hw : Script.weight m.cmds using Nat.strongRecOn generalizing m with
  | _ w ih =>
      obtain ⟨s, alt, cmds⟩ := m
      cases cmds with
      | nil => exact nil s alt
      | cons c rest =>
          refine cons s alt c rest ?_
          intro t ht
          have hlt : Script.weight t.cmds < Script.weight (c :: rest) :=
            weight_step (m := ⟨s, alt, rest⟩) ht
          exact ih _ (hw ▸ hlt) t rfl

/-- A run with a command in front is a step and a run from there. -/
theorem run_cons_eq_ok_iff {s alt : Stack} {c : Command} {rest : Script} {t : Machine} :
    run mode ctx ⟨s, alt, c :: rest⟩ = .ok t ↔
      ∃ u, step mode ctx ⟨s, alt, rest⟩ c = .ok u ∧ run mode ctx u = .ok t := by
  rw [run_cons]
  exact Except.bind_eq_ok_iff

/-- A run goes on with the stack that an attempt on it leaves. -/
theorem run_withStack_eq_ok_iff {c : Command} {attempt : Attempt Stack} {e : Script.Failure}
    {s alt : Stack} {rest : Script} {t : Machine}
    (hstep : step mode ctx ⟨s, alt, rest⟩ c
      = (withStack ⟨s, alt, rest⟩ attempt).mapError fun _ => e) :
    run mode ctx ⟨s, alt, c :: rest⟩ = .ok t ↔
      ∃ u, attempt = .ok u ∧ run mode ctx ⟨u, alt, rest⟩ = .ok t := by
  rw [run_cons, hstep]
  cases attempt with
  | error u =>
      constructor
      · intro h
        exact nomatch h
      · rintro ⟨v, hv, -⟩
        exact nomatch hv
  | ok u =>
      constructor
      · intro h
        exact ⟨u, rfl, h⟩
      · rintro ⟨v, hv, h⟩
        obtain rfl := Except.ok.inj hv
        exact h

theorem run_stackOp_eq_ok_iff {code : UInt8} {op : StackOp}
    (hop : Operation.ofCode? code = some (.stack op)) {s alt : Stack} {rest : Script} {t : Machine} :
    run mode ctx ⟨s, alt, .op code :: rest⟩ = .ok t ↔
      ∃ u, op.apply s = .ok u ∧ run mode ctx ⟨u, alt, rest⟩ = .ok t :=
  run_withStack_eq_ok_iff (perform_of_ofCode?_eq_some hop _)

theorem run_sigOp_eq_ok_iff {code : UInt8} {op : SigOp}
    (hop : Operation.ofCode? code = some (.sig op)) {s alt : Stack} {rest : Script} {t : Machine} :
    run mode ctx ⟨s, alt, .op code :: rest⟩ = .ok t ↔
      ∃ u, op.apply ctx.z s = .ok u ∧ run mode ctx ⟨u, alt, rest⟩ = .ok t :=
  run_withStack_eq_ok_iff (perform_of_ofCode?_eq_some hop _)

theorem run_lockOp_eq_ok_iff {code : UInt8} {op : LockOp}
    (hop : Operation.ofCode? code = some (.lock op)) {s alt : Stack} {rest : Script} {t : Machine} :
    run mode ctx ⟨s, alt, .op code :: rest⟩ = .ok t ↔
      ∃ u, op.apply ctx s = .ok u ∧ run mode ctx ⟨u, alt, rest⟩ = .ok t :=
  run_withStack_eq_ok_iff (perform_of_ofCode?_eq_some hop _)

/-- A run goes on with the stack that an opcode leaves. -/
theorem run_stackOp {code : UInt8} {op : StackOp}
    (hop : Operation.ofCode? code = some (.stack op)) {s u alt : Stack} {rest : Script}
    (h : op.apply s = .ok u) :
    run mode ctx ⟨s, alt, .op code :: rest⟩ = run mode ctx ⟨u, alt, rest⟩ := by
  have hstep : step mode ctx ⟨s, alt, rest⟩ (.op code) = .ok ⟨u, alt, rest⟩ := by
    refine (perform_of_ofCode?_eq_some hop _).trans ?_
    rw [Operation.apply, h]
    rfl
  rw [run_cons, hstep]
  rfl

/-- A run goes on with pushed bytes on the stack where no script is locked to a script hash. -/
theorem run_data {s alt : Stack} {bs : Bytes} {rest : Script}
    (h : Script.scriptHash? rest = none) :
    run mode ctx ⟨s, alt, .data bs :: rest⟩ = run mode ctx ⟨bs :: s, alt, rest⟩ := by
  have hstep : step mode ctx ⟨s, alt, rest⟩ (.data bs) = .ok ⟨bs :: s, alt, rest⟩ :=
    push_of_scriptHash?_eq_none (m := ⟨s, alt, rest⟩) h mode bs
  rw [run_cons, hstep]
  rfl

/-- A run leaves no command. -/
theorem cmds_run {m t : Machine} (h : run mode ctx m = .ok t) : t.cmds = [] := by
  induction m using run_induction mode ctx with
  | nil s alt =>
      rw [run_nil] at h
      obtain rfl := Except.ok.inj h
      rfl
  | cons s alt c rest ih =>
      obtain ⟨u, hu, ht⟩ := run_cons_eq_ok_iff.mp h
      exact ih u hu ht

/-- The commands that a run takes, in the order in which it does, each with the commands that are
    left behind it. What a conditional cuts down to and what a redemption puts in the place of the
    commands shows in what is behind the next command. -/
def history (mode : Redemption) (ctx : SpendContext) (m : Machine) : List (Command × Script) :=
  match hc : m.cmds with
  | [] => []
  | c :: rest =>
      (c, rest) ::
        match hs : step mode ctx { m with cmds := rest } c with
        | .error _ => []
        | .ok t =>
            have : Script.weight t.cmds < Script.weight m.cmds := hc ▸ weight_step hs
            history mode ctx t
termination_by Script.weight m.cmds

/-- The commands that are taken after a step, when there is a machine after it. -/
def historyAfter (mode : Redemption) (ctx : SpendContext) :
    Except Script.Failure Machine → List (Command × Script)
  | .error _ => []
  | .ok t => history mode ctx t

/-- Without commands none is taken. -/
theorem history_nil (s alt : Stack) : history mode ctx ⟨s, alt, []⟩ = [] := by
  rw [history]

/-- The first command comes before those that are taken after its step. -/
theorem history_cons (s alt : Stack) (c : Command) (rest : Script) :
    history mode ctx ⟨s, alt, c :: rest⟩
      = (c, rest) :: historyAfter mode ctx (step mode ctx ⟨s, alt, rest⟩ c) := by
  rw [history]
  split
  · next hcmds => exact nomatch hcmds
  · next hcmds =>
      obtain ⟨rfl, rfl⟩ := List.cons.inj hcmds
      refine congrArg (List.cons _) ?_
      split
      · next e hs =>
          have he : step mode ctx ⟨s, alt, rest⟩ c = .error e := hs
          rw [he]
          rfl
      · next t hs =>
          have ht : step mode ctx ⟨s, alt, rest⟩ c = .ok t := hs
          show history mode ctx t = _
          rw [ht]
          rfl

/-- A command whose step succeeds comes before those of the run from there. -/
theorem history_of_step_ok {s alt : Stack} {c : Command} {rest : Script} {t : Machine}
    (h : step mode ctx ⟨s, alt, rest⟩ c = .ok t) :
    history mode ctx ⟨s, alt, c :: rest⟩ = (c, rest) :: history mode ctx t := by
  rw [history_cons, h]
  rfl

/-- Runs a machine from where it stands and asks for the verdict, as a script is run from `start`. -/
def execute (ctx : SpendContext) (m : Machine) : Except Script.Failure Unit := do
  (← m.run .on ctx).verdict

/-- A machine succeeds when its run ends with a true element on top. -/
theorem execute_eq_ok_iff {m : Machine} :
    m.execute ctx = .ok () ↔ ∃ top s alt, m.run .on ctx = .ok ⟨top :: s, alt, []⟩ ∧
      ScriptNumber.isTrue top = true := by
  rw [execute]
  constructor
  · intro h
    obtain ⟨t, hrun, hverdict⟩ := Except.bind_eq_ok_iff.mp h
    obtain ⟨top, s, hs, htop⟩ := verdict_eq_ok_iff.mp hverdict
    have hcmds := cmds_run hrun
    obtain ⟨stack, alt, cmds⟩ := t
    obtain rfl : stack = top :: s := hs
    obtain rfl : cmds = [] := hcmds
    exact ⟨top, s, alt, hrun, htop⟩
  · rintro ⟨top, s, alt, hrun, htop⟩
    refine Except.bind_eq_ok_iff.mpr ⟨_, hrun, ?_⟩
    exact verdict_eq_ok_iff.mpr ⟨top, s, rfl, htop⟩

end Bitcoin.Machine
