import Bitcoin.Proofs.Script.Delimiters
import Bitcoin.Proofs.Script.Redemption

/-!
# Conditionals without cutting commands out

The machine opens a conditional by cutting the commands that follow down to the chosen part. There
is another way to run the same script, which leaves the commands as they are: go through them one
after the other, remember for each open conditional whether its current part was chosen, and skip
every command that is in a part that was not. Both succeed on the same scripts and leave the same
stacks, as long as no conditional has more than one separator of its own and no pushed bytes are
taken for a script. A further separator changes parts again on the one and nothing on the other.

* **`run_branch`**: cutting a conditional down does not change what is run of it.
* **`run_eq_ok_iff`**: both ways of running a script end with the same stacks.
* **`execute_eq_ok_iff_conditionMachine`**: both succeed on the same scripts, with the same main
  stack.
-/

namespace Bitcoin

/-- The two stacks and, for each open conditional, whether its current part was chosen; the
    innermost comes first. -/
structure ConditionMachine where
  stack : Stack
  alt : Stack
  conditions : List Bool
deriving DecidableEq

namespace ConditionMachine

/-- The machine before the first command. -/
def start : ConditionMachine := ⟨[], [], []⟩

/-- Whether commands are run: every open conditional is in the part that was chosen. -/
def running (m : ConditionMachine) : Bool := m.conditions.all id

/-- Opens a conditional. The choice is taken from the stack where commands are run; elsewhere no
    part is chosen. -/
def opened (m : ConditionMachine) (op : FlowOp) : Option ConditionMachine :=
  if m.running then
    match m.stack with
    | [] => none
    | top :: s =>
        let chosen := op.takesFirst (ScriptNumber.isTrue top)
        some { m with stack := s, conditions := chosen :: m.conditions }
  else some { m with conditions := false :: m.conditions }

/-- Goes on to the other part of the innermost conditional. -/
def separated (m : ConditionMachine) : Option ConditionMachine :=
  match m.conditions with
  | [] => none
  | chosen :: outer => some { m with conditions := (!chosen) :: outer }

/-- Closes the innermost conditional. -/
def closed (m : ConditionMachine) : Option ConditionMachine :=
  match m.conditions with
  | [] => none
  | _ :: outer => some { m with conditions := outer }

/-- Runs a command that is no delimiter, or fails. -/
def performed [Digests] (ctx : SpendContext) (m : ConditionMachine) (c : Command) :
    Option ConditionMachine :=
  match Machine.step .off ctx ⟨m.stack, m.alt, []⟩ c with
  | .ok t => some { m with stack := t.stack, alt := t.alt }
  | .error _ => none

/-- Goes past one command. -/
def step [Digests] (ctx : SpendContext) (m : ConditionMachine) : Command → Option ConditionMachine
  | .op Opcode.ifTrue => m.opened .ifTrue
  | .op Opcode.ifFalse => m.opened .ifFalse
  | .op Opcode.orElse => m.separated
  | .op Opcode.endIf => m.closed
  | c => if m.running then m.performed ctx c else some m

/-- Goes through commands from the first to the last. -/
def run [Digests] (ctx : SpendContext) (m : ConditionMachine) (s : Script) :
    Option ConditionMachine :=
  s.foldlM (step ctx) m

/-- The main stack, when no conditional is open and the top element is true. -/
def result? (m : ConditionMachine) : Option Stack :=
  match m.conditions, m.stack with
  | [], top :: s => if ScriptNumber.isTrue top then some (top :: s) else none
  | _, _ => none

end ConditionMachine

/-- The main stack with which a script succeeds when it is run without cutting commands out. -/
def Script.result? [Digests] (ctx : SpendContext) (s : Script) : Option Stack :=
  (ConditionMachine.start.run ctx s).bind ConditionMachine.result?

namespace Operation

/-- Only the commands that open a conditional do so. -/
theorem command_of_ofCode? {code : UInt8} {op : FlowOp} (h : ofCode? code = some (.flow op)) :
    Command.op code = op.command := by
  unfold ofCode? at h
  split at h
  · cases h
  · split at h
    case h_13 =>
        -- the codes of the stack operations
        obtain ⟨_, -, hop⟩ := Option.map_eq_some_iff.mp h
        cases hop
    all_goals cases h <;> rfl

end Operation

namespace Machine

variable [Digests] {ctx : SpendContext}

/-- A command that is no delimiter does not look at the commands behind it. -/
theorem step_plain {s alt : Stack} {c : Command} (hopen : c.opens = false) (rest : Script) :
    step .off ctx ⟨s, alt, rest⟩ c = (step .off ctx ⟨s, alt, []⟩ c).map (·.append rest) := by
  cases c with
  | data bs =>
      show push .off bs ⟨s, alt, rest⟩ = (push .off bs ⟨s, alt, []⟩).map (·.append rest)
      rw [push_off, push_off]
      rfl
  | op code =>
      show perform ctx code (append ⟨s, alt, []⟩ rest)
        = (perform ctx code ⟨s, alt, []⟩).map (·.append rest)
      cases hop : Operation.ofCode? code with
      | none =>
          obtain ⟨e, he⟩ := perform_of_ofCode?_eq_none hop
          rw [he, he]
          rfl
      | some op =>
          have hflow : ∀ flow, op ≠ .flow flow := by
            rintro flow rfl
            rw [Operation.command_of_ofCode? hop, flow.opens_command] at hopen
            exact nomatch hopen
          rw [perform_of_ofCode?_eq_some hop, perform_of_ofCode?_eq_some hop]
          exact apply_append_of_ne_flow hflow ctx ⟨s, alt, []⟩ _

/-- A command that opens no conditional does not look at what is left to run. -/
theorem step_plain_eq_ok_iff {s alt : Stack} {c : Command} {rest : Script} {t : Machine}
    (hopen : c.opens = false) : step .off ctx ⟨s, alt, rest⟩ c = .ok t ↔
      ∃ s' alt', step .off ctx ⟨s, alt, []⟩ c = .ok ⟨s', alt', []⟩ ∧ t = ⟨s', alt', rest⟩ := by
  rw [step_plain hopen]
  constructor
  · intro h
    obtain ⟨⟨s', alt', cmds⟩, hu, rfl⟩ := Except.map_eq_ok_iff.mp h
    obtain rfl : cmds = [] := List.sublist_nil.mp (step_off_sublist hu)
    exact ⟨s', alt', hu, rfl⟩
  · rintro ⟨s', alt', hu, rfl⟩
    exact Except.map_eq_ok_iff.mpr ⟨_, hu, rfl⟩

/-- A command that opens a conditional does what its operation does. -/
theorem step_opens (op : FlowOp) (m : Machine) : step .off ctx m op.command
    = ((Operation.flow op).apply ctx m).mapError fun _ => failure (.flow op) op.code := by
  have hop : Operation.ofCode? op.code = some (.flow op) := by
    cases op with
    | ifTrue => rfl
    | ifFalse => rfl
  exact perform_of_ofCode?_eq_some hop m

/-- A command that opens a conditional takes the condition and cuts the commands down. -/
theorem step_opens_eq_ok_iff {op : FlowOp} {s alt : Stack} {rest : Script} {t : Machine} :
    step .off ctx ⟨s, alt, rest⟩ op.command = .ok t ↔ ∃ top s' cmds, s = top :: s' ∧
      Script.branch (op.takesFirst (ScriptNumber.isTrue top)) rest = some cmds ∧
        t = ⟨s', alt, cmds⟩ := by
  rw [step_opens, Operation.apply]
  cases s with
  | nil =>
      constructor
      · intro h
        cases h
      · rintro ⟨top, s', cmds, hs, -⟩
        cases hs
  | cons top s' =>
      rw [FlowOp.apply]
      cases hb : Script.branch (op.takesFirst (ScriptNumber.isTrue top)) rest with
      | none =>
          constructor
          · intro h
            cases h
          · rintro ⟨_, _, cmds, hs, hcmds, -⟩
            obtain ⟨rfl, rfl⟩ := List.cons.inj hs
            cases hb.symm.trans hcmds
      | some cmds =>
          constructor
          · intro h
            obtain rfl := Except.ok.inj h
            exact ⟨top, s', cmds, rfl, hb, rfl⟩
          · rintro ⟨_, _, _, hs, hcmds, rfl⟩
            obtain ⟨rfl, rfl⟩ := List.cons.inj hs
            obtain rfl := Option.some.inj (hb.symm.trans hcmds)
            rfl

end Machine

namespace ConditionMachine

variable [Digests] {ctx : SpendContext} {m t : ConditionMachine}

/-! ## One command -/

/-- A command that opens a conditional puts its condition on top. -/
theorem step_opens (op : FlowOp) : m.step ctx op.command = m.opened op := by
  cases op with
  | ifTrue => rfl
  | ifFalse => rfl

/-- A command that is no delimiter is performed where all conditions hold, and skipped elsewhere. -/
theorem step_plain {c : Command} (hopen : c.opens = false) (hsep : c.separates = false)
    (hclose : c.closes = false) :
    m.step ctx c = if m.running then m.performed ctx c else some m := by
  unfold step
  split
  · exact nomatch hopen
  · exact nomatch hopen
  · exact nomatch hsep
  · exact nomatch hclose
  · rfl

/-- What is performed is a step of the plain machine, and the conditions stay. -/
theorem performed_eq_some_iff {c : Command} : m.performed ctx c = some t ↔
    ∃ s alt, Machine.step .off ctx ⟨m.stack, m.alt, []⟩ c = .ok ⟨s, alt, []⟩ ∧
      t = ⟨s, alt, m.conditions⟩ := by
  rw [performed]
  split
  · next u hu =>
      obtain ⟨s, alt, cmds⟩ := u
      obtain rfl : cmds = [] := List.sublist_nil.mp (Machine.step_off_sublist hu)
      constructor
      · intro h
        obtain rfl := Option.some.inj h
        exact ⟨s, alt, hu, rfl⟩
      · rintro ⟨s', alt', hu', rfl⟩
        cases hu.symm.trans hu'
        rfl
  · next e he =>
      constructor
      · intro h
        cases h
      · rintro ⟨s', alt', hu, -⟩
        cases he.symm.trans hu

omit [Digests] in
/-- Outside of every conditional the choice is taken from the stack. -/
theorem opened_eq_some_iff {op : FlowOp} {s alt : Stack} :
    opened ⟨s, alt, []⟩ op = some t ↔ ∃ top s', s = top :: s' ∧
      t = ⟨s', alt, [op.takesFirst (ScriptNumber.isTrue top)]⟩ := by
  cases s with
  | nil =>
      constructor
      · intro h
        cases h
      · rintro ⟨top, s', hs, -⟩
        cases hs
  | cons top s' =>
      constructor
      · intro h
        obtain rfl := Option.some.inj h
        exact ⟨top, s', rfl, rfl⟩
      · rintro ⟨_, _, hs, rfl⟩
        obtain ⟨rfl, rfl⟩ := List.cons.inj hs
        rfl

/-- The stack of conditions grows and shrinks with the conditionals that are open. -/
theorem openStep_of_step {c : Command} (h : m.step ctx c = some t) :
    Script.openStep m.conditions.length c = some t.conditions.length := by
  obtain ⟨s, alt, conditions⟩ := m
  cases c.role with
  | opens op =>
      rw [step_opens, opened] at h
      rw [Script.openStep_opens]
      split at h
      · cases s with
        | nil => exact nomatch h
        | cons top s => obtain rfl := Option.some.inj h; rfl
      · obtain rfl := Option.some.inj h
        rfl
  | separates =>
      cases conditions with
      | nil => exact nomatch h
      | cons chosen outer => obtain rfl := Option.some.inj h; rfl
  | closes =>
      cases conditions with
      | nil => exact nomatch h
      | cons chosen outer => obtain rfl := Option.some.inj h; rfl
  | plain hopen hsep hclose =>
      rw [step_plain hopen hsep hclose] at h
      rw [Script.openStep_plain _ hopen hsep hclose]
      split at h
      · obtain ⟨s', alt', -, rfl⟩ := performed_eq_some_iff.mp h
        rfl
      · obtain rfl := Option.some.inj h
        rfl

/-- The machine with further conditionals around. -/
def under (m : ConditionMachine) (outer : List Bool) : ConditionMachine :=
  { m with conditions := m.conditions ++ outer }

/-- A conditional around a command is not looked at when its part was chosen. -/
theorem step_under_chosen {c : Command} {d : Nat}
    (h : Script.openStep m.conditions.length c = some d) :
    (m.under [true]).step ctx c = (m.step ctx c).map (·.under [true]) := by
  obtain ⟨s, alt, conditions⟩ := m
  have hrunning : (under ⟨s, alt, conditions⟩ [true]).running = running ⟨s, alt, conditions⟩ := by
    simp only [running, under, List.all_append, List.all_cons, List.all_nil, id, Bool.and_true]
  cases c.role with
  | opens op =>
      rw [step_opens, step_opens, opened, opened, hrunning]
      split
      · cases s with
        | nil => rfl
        | cons top s => rfl
      · rfl
  | separates =>
      cases conditions with
      | nil => exact nomatch h
      | cons chosen outer => rfl
  | closes =>
      cases conditions with
      | nil => exact nomatch h
      | cons chosen outer => rfl
  | plain hopen hsep hclose =>
      rw [step_plain hopen hsep hclose, step_plain hopen hsep hclose, hrunning]
      split
      · show performed ctx ⟨s, alt, conditions ++ [true]⟩ c = _
        rw [performed, performed]
        cases Machine.step .off ctx ⟨s, alt, []⟩ c with
        | ok u => rfl
        | error e => rfl
      · rfl

/-- A command does nothing but open and close conditionals where the part around it was not
    chosen. -/
theorem step_skipped (ctx : SpendContext) (s alt : Stack) {inner : List Bool} {c : Command}
    {d : Nat} (h : Script.openStep inner.length c = some d) :
    ∃ inner' : List Bool, inner'.length = d ∧
      step ctx ⟨s, alt, inner ++ [false]⟩ c = some ⟨s, alt, inner' ++ [false]⟩ := by
  have hrunning : running ⟨s, alt, inner ++ [false]⟩ = false := by
    simp only [running, List.all_append, List.all_cons, id, Bool.false_and, Bool.and_false]
  cases c.role with
  | opens op =>
      rw [Script.openStep_opens] at h
      obtain rfl := Option.some.inj h
      refine ⟨false :: inner, rfl, ?_⟩
      rw [step_opens, opened, hrunning]
      rfl
  | separates =>
      cases inner with
      | nil => exact nomatch h
      | cons chosen inner =>
          obtain rfl := Option.some.inj h
          exact ⟨(!chosen) :: inner, rfl, rfl⟩
  | closes =>
      cases inner with
      | nil => exact nomatch h
      | cons chosen inner =>
          obtain rfl := Option.some.inj h
          exact ⟨inner, rfl, rfl⟩
  | plain hopen hsep hclose =>
      rw [Script.openStep_plain _ hopen hsep hclose] at h
      obtain rfl := Option.some.inj h
      refine ⟨inner, rfl, ?_⟩
      rw [step_plain hopen hsep hclose, hrunning]
      rfl

/-! ## Commands one after the other -/

theorem run_cons (c : Command) (rest : Script) :
    m.run ctx (c :: rest) = (m.step ctx c).bind fun t => t.run ctx rest := rfl

theorem run_append (a b : Script) :
    m.run ctx (a ++ b) = (m.run ctx a).bind fun t => t.run ctx b :=
  List.foldlM_append

/-- There are as many conditions as there are open conditionals. -/
theorem openAfter_of_run {s : Script} (h : m.run ctx s = some t) :
    Script.openAfter m.conditions.length s = some t.conditions.length := by
  induction s generalizing m with
  | nil =>
      obtain rfl := Option.some.inj h
      rfl
  | cons c rest ih =>
      obtain ⟨u, hstep, hrest⟩ := Option.bind_eq_some_iff.mp h
      rw [Script.openAfter_cons, openStep_of_step hstep]
      exact ih hrest

/-- A condition that holds changes nothing below it. -/
theorem run_under_chosen {s : Script} {d : Nat}
    (h : Script.openAfter m.conditions.length s = some d) :
    (m.under [true]).run ctx s = (m.run ctx s).map (·.under [true]) := by
  induction s generalizing m with
  | nil => rfl
  | cons c rest ih =>
      rw [Script.openAfter_cons] at h
      obtain ⟨d', hopen, hrest⟩ := Option.bind_eq_some_iff.mp h
      rw [run_cons, run_cons, step_under_chosen hopen]
      cases hstep : m.step ctx c with
      | none => rfl
      | some u =>
          obtain rfl := Option.some.inj (hopen.symm.trans (openStep_of_step hstep))
          exact ih hrest

/-- Under a condition that fails nothing is performed. -/
theorem run_skipped (ctx : SpendContext) (st alt : Stack) {inner : List Bool} {s : Script}
    {d : Nat} (h : Script.openAfter inner.length s = some d) :
    ∃ inner' : List Bool, inner'.length = d ∧
      run ctx ⟨st, alt, inner ++ [false]⟩ s = some ⟨st, alt, inner' ++ [false]⟩ := by
  induction s generalizing inner with
  | nil => exact ⟨inner, Option.some.inj h, rfl⟩
  | cons c rest ih =>
      rw [Script.openAfter_cons] at h
      obtain ⟨d', hopen, hrest⟩ := Option.bind_eq_some_iff.mp h
      obtain ⟨inner', rfl, hstep⟩ := step_skipped ctx st alt hopen
      obtain ⟨inner'', hlength, hrun⟩ := ih hrest
      refine ⟨inner'', hlength, ?_⟩
      rw [run_cons, hstep]
      exact hrun

/-! ## One conditional -/

/-- What is balanced and not chosen is passed over. -/
theorem run_balanced_skipped {st alt : Stack} {x : Script} (hx : x.Balanced) (rest : Script) :
    run ctx ⟨st, alt, [false]⟩ (x ++ rest) = run ctx ⟨st, alt, [false]⟩ rest := by
  obtain ⟨inner, hlength, hrun⟩ := @run_skipped _ ctx st alt [] x 0 hx
  obtain rfl := List.length_eq_zero_iff.mp hlength
  rw [run_append]
  show (run ctx ⟨st, alt, [] ++ [false]⟩ x).bind _ = _
  rw [hrun]
  rfl

/-- What is balanced and chosen is run as if no conditional were around it. -/
theorem run_balanced_chosen {x q r : Script} (hx : x.Balanced)
    (hrest : ∀ st alt, run ctx ⟨st, alt, [true]⟩ q = run ctx ⟨st, alt, []⟩ r) (st alt : Stack) :
    run ctx ⟨st, alt, [true]⟩ (x ++ q) = run ctx ⟨st, alt, []⟩ (x ++ r) := by
  have hunder : run ctx ⟨st, alt, [true]⟩ x = (run ctx ⟨st, alt, []⟩ x).map (·.under [true]) :=
    run_under_chosen (m := ⟨st, alt, []⟩) hx
  rw [run_append, run_append, hunder]
  cases hrun : run ctx ⟨st, alt, []⟩ x with
  | none => rfl
  | some u =>
      -- no conditional is left open by what is balanced
      have hlength := Option.some.inj ((openAfter_of_run hrun).symm.trans hx)
      obtain ⟨st', alt', conditions⟩ := u
      obtain rfl : conditions = [] := List.length_eq_zero_iff.mp hlength
      exact hrest st' alt'

/-- Cutting a conditional down does not change what is run of it. -/
theorem run_branch {first : Bool} {s cmds : Script}
    (hsingle : (Script.marksAfter [false] s).isSome) (h : Script.branch first s = some cmds)
    (st alt : Stack) : run ctx ⟨st, alt, [first]⟩ s = run ctx ⟨st, alt, []⟩ cmds := by
  obtain ⟨x, y, r, hx, hy, hs, rfl⟩ := Script.branch_eq_some hsingle h
  cases first with
  | true =>
      rcases hs with ⟨rfl, -⟩ | rfl
      · exact run_balanced_chosen hx (fun _ _ => rfl) st alt
      · refine run_balanced_chosen hx (fun st' alt' => ?_) st alt
        exact run_balanced_skipped hy (.op Opcode.endIf :: r)
  | false =>
      rcases hs with ⟨rfl, rfl⟩ | rfl
      · exact run_balanced_skipped hx (.op Opcode.endIf :: r)
      · refine (run_balanced_skipped hx _).trans ?_
        exact run_balanced_chosen hy (fun _ _ => rfl) st alt

/-- A conditional that the scanner cannot cut down is open at the end, whatever its part. -/
theorem conditions_ne_nil_of_run {chosen first : Bool} {st alt : Stack} {s : Script}
    (hnone : Script.branch first s = none) (h : run ctx ⟨st, alt, [chosen]⟩ s = some t) :
    t.conditions ≠ [] :=
  List.length_pos_iff.mp (Script.open_of_selectPart_eq_none hnone (openAfter_of_run h))

/-! ## A whole script -/

/-- Both ways of running a script end with the same stacks. -/
theorem run_eq_ok_iff {m : Machine} (hsingle : m.cmds.SingleElse) {s alt : Stack} :
    m.run .off ctx = .ok ⟨s, alt, []⟩ ↔
      run ctx ⟨m.stack, m.alt, []⟩ m.cmds = some ⟨s, alt, []⟩ := by
  -- along the run that cuts commands out: between two of its steps no conditional is open
  induction m using Machine.run_induction .off ctx with
  | nil st al =>
      rw [Machine.run_nil]
      constructor
      · intro h
        cases h
        rfl
      · intro h
        cases h
        rfl
  | cons st al c rest ih =>
      rw [Machine.run_cons_eq_ok_iff, run_cons, Option.bind_eq_some_iff]
      cases c.role with
      | opens op =>
          have hinner : (Script.marksAfter [false] rest).isSome := by
            cases op with
            | ifTrue => exact hsingle
            | ifFalse => exact hsingle
          rw [step_opens]
          constructor
          · rintro ⟨u, hu, hrun⟩
            obtain ⟨top, st', cmds, rfl, hb, rfl⟩ := Machine.step_opens_eq_ok_iff.mp hu
            have hcmds := Script.singleElse_of_branch hinner hb
            refine ⟨_, opened_eq_some_iff.mpr ⟨top, st', rfl, rfl⟩, ?_⟩
            exact (run_branch hinner hb st' al).trans ((ih _ hu hcmds).mp hrun)
          · rintro ⟨u, hu, hrun⟩
            obtain ⟨top, st', rfl, rfl⟩ := opened_eq_some_iff.mp hu
            cases hb : Script.branch (op.takesFirst (ScriptNumber.isTrue top)) rest with
            | none => exact absurd rfl (conditions_ne_nil_of_run hb hrun)
            | some cmds =>
                have hcmds := Script.singleElse_of_branch hinner hb
                have hstep := (@Machine.step_opens_eq_ok_iff _ ctx op _ al rest _).mpr
                  ⟨top, st', cmds, rfl, hb, rfl⟩
                refine ⟨_, hstep, (ih _ hstep hcmds).mpr ?_⟩
                exact (run_branch hinner hb st' al).symm.trans hrun
      | separates =>
          constructor
          · rintro ⟨u, hu, -⟩
            cases hu
          · rintro ⟨u, hu, -⟩
            cases hu
      | closes =>
          constructor
          · rintro ⟨u, hu, -⟩
            cases hu
          · rintro ⟨u, hu, -⟩
            cases hu
      | plain hopen hsep hclose =>
          have hrest := Script.singleElse_of_cons hopen hsep hclose hsingle
          have hperformed : step ctx ⟨st, al, []⟩ c = performed ctx ⟨st, al, []⟩ c :=
            step_plain hopen hsep hclose
          rw [hperformed]
          constructor
          · rintro ⟨u, hu, hrun⟩
            obtain ⟨st', al', hstacks, rfl⟩ := (Machine.step_plain_eq_ok_iff hopen).mp hu
            refine ⟨_, performed_eq_some_iff.mpr ⟨st', al', hstacks, rfl⟩, ?_⟩
            exact (ih _ hu hrest).mp hrun
          · rintro ⟨u, hu, hrun⟩
            obtain ⟨st', al', hstacks, rfl⟩ := performed_eq_some_iff.mp hu
            have hstep := (@Machine.step_plain_eq_ok_iff _ ctx st al c rest _ hopen).mpr
              ⟨st', al', hstacks, rfl⟩
            exact ⟨_, hstep, (ih _ hstep hrest).mpr hrun⟩

omit [Digests] in
/-- The reference machine succeeds when no conditional is open and the top element is true. -/
theorem result?_eq_some_iff {m : ConditionMachine} {stack : Stack} :
    m.result? = some stack ↔
      m.conditions = [] ∧ m.stack = stack ∧ ∃ top s, stack = top :: s ∧
        ScriptNumber.isTrue top = true := by
  obtain ⟨s, alt, conditions⟩ := m
  cases conditions with
  | cons chosen outer =>
      constructor
      · intro h
        exact nomatch h
      · rintro ⟨h, -⟩
        exact nomatch h
  | nil =>
      cases s with
      | nil =>
          constructor
          · intro h
            exact nomatch h
          · rintro ⟨-, rfl, top, s, hs, -⟩
            exact nomatch hs
      | cons top s =>
          show (if ScriptNumber.isTrue top then some (top :: s) else none) = some stack ↔ _
          constructor
          · intro h
            obtain ⟨htop, hs⟩ := Option.ite_none_right_eq_some.mp h
            obtain rfl := Option.some.inj hs
            exact ⟨rfl, rfl, top, s, rfl, htop⟩
          · rintro ⟨-, rfl, top', s', hs, htop⟩
            obtain ⟨rfl, rfl⟩ := List.cons.inj hs
            exact if_pos htop

end ConditionMachine

namespace Script

/-- Where no pushed bytes are taken for a script and no conditional has a second separator, a
    script succeeds exactly when it does without commands being cut out, and with the same main
    stack. -/
theorem execute_eq_ok_iff_conditionMachine [Digests] {ctx : SpendContext} {s : Script}
    (hsingle : s.SingleElse) (hnone : Machine.redemptions ctx (Machine.start s) = []) :
    (s.execute ctx = .ok () ↔ ∃ stack, s.result? ctx = some stack) ∧
      ∀ stack, s.result? ctx = some stack →
        ∃ alt, (Machine.start s).run .on ctx = .ok ⟨stack, alt, []⟩ := by
  have hrun : ∀ stack alt, (Machine.start s).run .on ctx = .ok ⟨stack, alt, []⟩ ↔
      ConditionMachine.start.run ctx s = some ⟨stack, alt, []⟩ := by
    intro stack alt
    rw [Machine.run_on_eq_off hnone]
    exact ConditionMachine.run_eq_ok_iff (m := Machine.start s) hsingle
  have hresult : ∀ stack, s.result? ctx = some stack →
      ∃ alt, ConditionMachine.start.run ctx s = some ⟨stack, alt, []⟩ ∧
        ∃ top rest, stack = top :: rest ∧ ScriptNumber.isTrue top = true := by
    intro stack h
    obtain ⟨⟨_, alt, _⟩, hm, hend⟩ := Option.bind_eq_some_iff.mp h
    obtain ⟨rfl, rfl, htop⟩ := ConditionMachine.result?_eq_some_iff.mp hend
    exact ⟨alt, hm, htop⟩
  refine ⟨⟨?_, ?_⟩, ?_⟩
  · intro h
    obtain ⟨top, rest, alt, hm, htop⟩ := (Machine.execute_eq_ok_iff (m := Machine.start s)).mp h
    refine ⟨top :: rest, Option.bind_eq_some_iff.mpr ⟨_, (hrun _ _).mp hm, ?_⟩⟩
    exact ConditionMachine.result?_eq_some_iff.mpr ⟨rfl, rfl, top, rest, rfl, htop⟩
  · rintro ⟨stack, h⟩
    obtain ⟨alt, hm, top, rest, rfl, htop⟩ := hresult stack h
    exact (Machine.execute_eq_ok_iff (m := Machine.start s)).mpr
      ⟨top, rest, alt, (hrun _ _).mpr hm, htop⟩
  · intro stack h
    obtain ⟨alt, hm, -⟩ := hresult stack h
    exact ⟨alt, (hrun stack alt).mpr hm⟩

/-- A conditional in the part of another that is not chosen, with an unknown opcode in it. -/
def skippedConditional : Script :=
  [.data [1], .data [], .op Opcode.ifTrue, .op Opcode.ifFalse, .op 0xff, .op Opcode.orElse,
    .op Opcode.endIf, .op Opcode.orElse, .data [7], .op Opcode.endIf]

/-- A conditional that is skipped. -/
theorem execute_eq_ok_iff_conditionMachine_skipped :
    skippedConditional.SingleElse ∧
      @Machine.redemptions Digests.standard (.final 0) (Machine.start skippedConditional) = [] ∧
      @execute Digests.standard (.final 0) skippedConditional = .ok () ∧
      ∃ alt, @Machine.run Digests.standard .on (.final 0) (Machine.start skippedConditional)
        = .ok ⟨[[7], [1]], alt, []⟩ := by
  have hsingle : skippedConditional.SingleElse := by decide
  have hnone : @Machine.redemptions Digests.standard (.final 0)
      (Machine.start skippedConditional) = [] := by
    refine @Machine.redemptions_eq_nil Digests.standard _ _ ?_
    rintro ⟨raw, h, hsub⟩
    have hmem : Command.op Opcode.hash160 ∈ skippedConditional :=
      hsub.subset (List.mem_cons_of_mem _ List.mem_cons_self)
    exact absurd hmem (by decide)
  have hresult : @result? Digests.standard (.final 0) skippedConditional = some [[7], [1]] := rfl
  obtain ⟨hok, hstacks⟩ :=
    @execute_eq_ok_iff_conditionMachine Digests.standard (.final 0) skippedConditional hsingle hnone
  exact ⟨hsingle, hnone, hok.mpr ⟨_, hresult⟩, hstacks _ hresult⟩

end Script

end Bitcoin
