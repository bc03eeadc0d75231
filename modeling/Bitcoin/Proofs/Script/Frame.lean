import Bitcoin.Proofs.Script.Run

/-!
# What lies below the elements that a script uses

A script sees no more of the stacks than what its opcodes take from the top. So when it runs to its
end, it runs to its end in the same way with any other elements below both stacks: it takes the same
commands, conditionals are cut down to the same parts, the same bytes are taken for scripts, and the
elements below are still there at the end. The one opcode that sees further is the one that counts
the elements of the stack.

* **`StackOp.framed_apply`**: an operation on the stack does not see what is below what it uses.
* **`Machine.step_above`**: neither does a step of the machine.
* **`Machine.run_above`**: a run takes the same commands and leaves the elements below as they are.
-/

namespace Bitcoin

namespace Stack

/-! ## Operations on one stack -/

/-- Where it succeeds, it succeeds in the same way with more elements below, and leaves these as
    they are. -/
def Framed (f : Stack → Attempt Stack) : Prop :=
  ∀ s t base : Stack, f s = .ok t → f (s ++ base) = .ok (t ++ base)

/-- An operation that needs an element looks at the top first. -/
theorem framed_cons {f : Stack → Attempt Stack} (hnil : (f []).isOk = false)
    (hcons : ∀ a, Framed fun s => f (a :: s)) : Framed f := by
  intro s t base h
  cases s with
  | nil =>
      rw [List.nil_append] at *
      rw [h] at hnil
      exact nomatch hnil
  | cons a s => exact hcons a s t base h

/-- What does not look at the stack any more can put elements on it. -/
theorem framed_ok {f : Stack → Stack} (h : ∀ s base, f (s ++ base) = f s ++ base) :
    Framed fun s => .ok (f s) := by
  intro s t base hs
  obtain rfl := Except.ok.inj hs
  exact congrArg Except.ok (h s base)

theorem framed_error {f : Stack → Stack} : Framed fun s => .error (f s) := by
  intro s t base h
  exact nomatch h

/-- A choice that does not depend on the stack does not see what is below when its branches do not.
    -/
theorem framed_ite {p : Prop} [Decidable p] {f g : Stack → Attempt Stack} (hf : Framed f)
    (hg : Framed g) : Framed fun s => if p then f s else g s := by
  by_cases hp : p
  · simpa only [if_pos hp] using hf
  · simpa only [if_neg hp] using hg

theorem Framed.andThen {f g : Stack → Attempt Stack} (hf : Framed f) (hg : Framed g) :
    Framed fun s => (f s).andThen g := by
  intro s t base h
  replace h : (f s).andThen g = .ok t := h
  show (f (s ++ base)).andThen g = .ok (t ++ base)
  cases hs : f s with
  | error u =>
      rw [hs] at h
      exact nomatch h
  | ok u =>
      rw [hs] at h
      rw [hf s u base hs]
      exact hg u t base h

/-- A comparison of bytes sees two elements. -/
theorem framed_equal : Framed equal :=
  framed_cons rfl fun _ => framed_cons rfl fun _ => framed_ok fun _ _ => rfl

theorem framed_compare (r : Int → Int → Bool) : Framed (compare r) :=
  framed_cons rfl fun _ => framed_cons rfl fun _ => framed_ok fun _ _ => rfl

theorem framed_verify : Framed verify :=
  framed_cons rfl fun _ => framed_ite (framed_ok fun _ _ => rfl) framed_error

/-- An index into the stack denotes the same element when more elements are below. -/
theorem popIndex_append {s rest : Stack} {i : Nat} {x : Bytes}
    (h : popIndex s = .ok (i, x, rest)) (base : Stack) :
    i < rest.length ∧ popIndex (s ++ base) = .ok (i, x, rest ++ base) := by
  cases s with
  | nil => exact nomatch h
  | cons top s =>
      rw [popIndex] at h
      rw [List.cons_append, popIndex]
      split at h
      · exact nomatch h
      · next hn =>
          split at h
          · next y hy =>
              cases h
              have hlt := (List.getElem?_eq_some_iff.mp hy).1
              refine ⟨hlt, ?_⟩
              rw [if_neg hn, List.getElem?_append_left hlt, hy]
          · exact nomatch h

/-- What is done with the element at an index does not see what is below when the index lies in the
    stack. -/
theorem framed_popIndex {f : Nat → Bytes → Stack → Stack}
    (h : ∀ i x rest base, i < rest.length → f i x (rest ++ base) = f i x rest ++ base) :
    Framed fun s => match popIndex s with
      | .ok (i, x, rest) => .ok (f i x rest)
      | .error rest => .error rest := by
  intro s t base hs
  dsimp only at hs ⊢
  cases hpop : popIndex s with
  | error rest =>
      rw [hpop] at hs
      exact nomatch hs
  | ok found =>
      obtain ⟨i, x, rest⟩ := found
      rw [hpop] at hs
      obtain rfl := Except.ok.inj hs
      obtain ⟨hlt, hbelow⟩ := popIndex_append hpop base
      rw [hbelow]
      exact congrArg Except.ok (h i x rest base hlt)

/-- A copy of an element from inside the stack goes on top, and what is below stays. -/
theorem framed_pick : Framed pick := by
  refine framed_popIndex (f := fun _ x rest => x :: rest) ?_
  intro i x rest base _
  rfl

/-- An element that is moved comes from inside the stack, so what is below stays. -/
theorem framed_roll : Framed roll := by
  refine framed_popIndex (f := fun i x rest => x :: rest.eraseIdx i) ?_
  intro i x rest base hlt
  show x :: (rest ++ base).eraseIdx i = _
  rw [List.eraseIdx_append_of_lt_length hlt]
  rfl

/-- A signature check sees a public key and a signature; whether it can be answered is a matter of
    these two. -/
theorem framed_checkSig (z : Int) : Framed (checkSig z) := by
  refine framed_cons rfl fun sec => framed_cons rfl fun signature => ?_
  cases hholds : signatureHolds sec signature z with
  | ok holds =>
      simp only [checkSig, hholds]
      exact framed_ok fun _ _ => rfl
  | error e =>
      simp only [checkSig, hholds]
      exact framed_error

end Stack

/-- One code counts the elements of the stack. -/
theorem Operation.code_of_ofCode?_depth {code : UInt8} (h : ofCode? code = some (.stack .depth)) :
    code = Opcode.depth := by
  have hall : ∀ n < 256, ofCode? (.ofNat n) = some (.stack .depth) →
      UInt8.ofNat n = Opcode.depth := by
    decide +kernel
  have hcode := hall code.toNat code.toNat_lt
  rw [UInt8.ofNat_toNat] at hcode
  exact hcode h

open Stack in
/-- Only the operation that counts the stack sees what is below. -/
theorem StackOp.framed_apply [Digests] {op : StackOp} (hop : op ≠ .depth) : Framed op.apply := by
  match op with
  | .depth => exact absurd rfl hop
  | .nop => exact framed_ok fun _ _ => rfl
  | .fail => exact framed_error
  | .verify => exact framed_verify
  | .pick => exact framed_pick
  | .roll => exact framed_roll
  | .drop | .dup | .size | .hash _ | .unary _ =>
      exact framed_cons rfl fun a => framed_ok fun _ _ => rfl
  | .ifDup =>
      refine framed_cons rfl fun a => framed_ok fun s base => ?_
      by_cases ha : ScriptNumber.isTrue a = true
      · simp only [if_pos ha, List.cons_append]
      · simp only [if_neg ha, List.cons_append]
  | .drop2 | .dup2 | .nip | .over | .swap | .tuck | .binary _ =>
      exact framed_cons rfl fun b => framed_cons rfl fun a => framed_ok fun _ _ => rfl
  | .equal => exact framed_equal
  | .compare op => exact framed_compare op.holds
  | .equalVerify => exact framed_equal.andThen framed_verify
  | .numEqualVerify => exact (framed_compare CompareOp.equal.holds).andThen framed_verify
  | .dup3 | .rot | .within =>
      exact framed_cons rfl fun c => framed_cons rfl fun b => framed_cons rfl fun a =>
        framed_ok fun _ _ => rfl
  | .over2 | .swap2 =>
      exact framed_cons rfl fun d => framed_cons rfl fun c => framed_cons rfl fun b =>
        framed_cons rfl fun a => framed_ok fun _ _ => rfl
  | .rot2 =>
      exact framed_cons rfl fun f => framed_cons rfl fun e => framed_cons rfl fun d =>
        framed_cons rfl fun c => framed_cons rfl fun b => framed_cons rfl fun a =>
          framed_ok fun _ _ => rfl

/-- Both forms of a signature check leave what is below. -/
theorem SigOp.framed_apply (op : SigOp) (z : Int) : Stack.Framed (op.apply z) := by
  cases op with
  | check => exact Stack.framed_checkSig z
  | checkVerify => exact (Stack.framed_checkSig z).andThen Stack.framed_verify

/-- A demand on a lock time looks at the top element. -/
theorem LockOp.framed_apply (op : LockOp) (ctx : SpendContext) : Stack.Framed (op.apply ctx) :=
  Stack.framed_cons rfl fun _ => Stack.framed_ite (Stack.framed_ok fun _ _ => rfl) Stack.framed_error

/-! ## Operations on the machine -/

/-- A move between the stacks takes the top of one to the top of the other. -/
theorem AltOp.apply_append {op : AltOp} {s alt s' alt' : Stack}
    (h : op.apply (s, alt) = .ok (s', alt')) (base altBase : Stack) :
    op.apply (s ++ base, alt ++ altBase) = .ok (s' ++ base, alt' ++ altBase) := by
  cases op with
  | toAlt =>
      cases s with
      | nil => cases h
      | cons a s =>
          obtain ⟨rfl, rfl⟩ := Prod.mk.inj (Except.ok.inj h)
          rfl
  | fromAlt =>
      cases alt with
      | nil => cases h
      | cons a alt =>
          obtain ⟨rfl, rfl⟩ := Prod.mk.inj (Except.ok.inj h)
          rfl

/-- The part of a conditional is chosen by the top element, so it is the same one. -/
theorem FlowOp.apply_append {op : FlowOp} {s s' : Stack} {cmds cmds' : Script}
    (h : op.apply (s, cmds) = .ok (s', cmds')) (base : Stack) :
    op.apply (s ++ base, cmds) = .ok (s' ++ base, cmds') := by
  cases s with
  | nil => cases h
  | cons top s =>
      rw [List.cons_append]
      rw [apply] at h ⊢
      cases hb : Script.branch (op.takesFirst (ScriptNumber.isTrue top)) cmds with
      | none =>
          rw [hb] at h
          cases h
      | some rest =>
          rw [hb] at h
          obtain ⟨rfl, rfl⟩ := Prod.mk.inj (Except.ok.inj h)
          rfl

namespace Machine

/-- The machine with more elements below both stacks. -/
def above (m : Machine) (base altBase : Stack) : Machine :=
  { m with stack := m.stack ++ base, alt := m.alt ++ altBase }

/-- An operation on the main stack leaves what is below both stacks. -/
theorem withStack_above {f : Stack → Attempt Stack} (hf : Stack.Framed f) {m t : Machine}
    (h : m.withStack (f m.stack) = .ok t) (base altBase : Stack) :
    (m.above base altBase).withStack (f (m.stack ++ base)) = .ok (t.above base altBase) := by
  obtain ⟨s, hs, rfl⟩ := withStack_eq_ok_iff.mp h
  exact withStack_eq_ok_iff.mpr ⟨_, hf _ s base hs, rfl⟩

variable [Digests] {mode : Redemption} {ctx : SpendContext}

/-- No operation but the one that counts the stack sees what is below both stacks. -/
theorem apply_above {op : Operation} (hop : op ≠ .stack .depth) {m t : Machine}
    (h : op.apply ctx m = .ok t) (base altBase : Stack) :
    op.apply ctx (m.above base altBase) = .ok (t.above base altBase) := by
  cases op with
  | push n =>
      obtain rfl := Except.ok.inj h
      rfl
  | stack op =>
      have hframed : Stack.Framed op.apply := StackOp.framed_apply fun hdepth => hop (hdepth ▸ rfl)
      exact withStack_above hframed h base altBase
  | alt op =>
      obtain ⟨s, alt, hs, rfl⟩ := withStacks_eq_ok_iff.mp h
      exact withStacks_eq_ok_iff.mpr ⟨_, _, AltOp.apply_append hs base altBase, rfl⟩
  | flow op =>
      obtain ⟨s, cmds, hs, rfl⟩ := withCommands_eq_ok_iff.mp h
      exact withCommands_eq_ok_iff.mpr ⟨_, _, FlowOp.apply_append hs base, rfl⟩
  | sig op => exact withStack_above (op.framed_apply ctx.z) h base altBase
  | lock op => exact withStack_above (op.framed_apply ctx) h base altBase
  | unsupported => cases h

/-- A push sees nothing but the commands that are left. -/
theorem push_above (bs : Bytes) (m : Machine) (base altBase : Stack) :
    (m.above base altBase).push mode bs = (m.push mode bs).map (·.above base altBase) := by
  cases hlock : Script.scriptHash? m.cmds with
  | none =>
      have habove : Script.scriptHash? (m.above base altBase).cmds = none := hlock
      rw [push_of_scriptHash?_eq_none hlock, push_of_scriptHash?_eq_none habove]
      rfl
  | some hash =>
      have habove : Script.scriptHash? (m.above base altBase).cmds = some hash := hlock
      cases mode with
      | off =>
          rw [push_off, push_off]
          rfl
      | on =>
          rw [push_on_of_scriptHash?_eq_some hlock, push_on_of_scriptHash?_eq_some habove]
          rw [redeem, redeem]
          by_cases hhash : Digests.hash160 bs = hash
          · rw [if_pos hhash, if_pos hhash]
            cases Script.ofRaw bs with
            | error e => rfl
            | ok cmds => rfl
          · rw [if_neg hhash, if_neg hhash]
            rfl

/-- A step does the same with more elements below both stacks: what a push does is decided by the
    commands, and an opcode does what its operation does. -/
theorem step_above {c : Command} (hc : c ≠ .op Opcode.depth) {m t : Machine}
    (h : step mode ctx m c = .ok t) (base altBase : Stack) :
    step mode ctx (m.above base altBase) c = .ok (t.above base altBase) := by
  cases c with
  | data bs =>
      replace h : m.push mode bs = .ok t := h
      show (m.above base altBase).push mode bs = _
      rw [push_above, h]
      rfl
  | op code =>
      replace h : m.perform ctx code = .ok t := h
      show (m.above base altBase).perform ctx code = _
      cases hop : Operation.ofCode? code with
      | none =>
          obtain ⟨e, he⟩ := perform_of_ofCode?_eq_none hop
          rw [he] at h
          exact nomatch h
      | some op =>
          rw [perform_of_ofCode?_eq_some hop] at h ⊢
          have hdepth : op ≠ .stack .depth := by
            rintro rfl
            exact hc (congrArg Command.op (Operation.code_of_ofCode?_depth hop))
          cases happly : op.apply ctx m with
          | error u =>
              rw [happly] at h
              exact nomatch h
          | ok u =>
              rw [happly] at h
              obtain rfl := Except.ok.inj h
              rw [apply_above hdepth happly]
              rfl

/-! ## Runs -/

/-- A run that takes its commands without counting the stack takes the same ones with more elements
    below both stacks, and leaves those elements as they are. -/
theorem run_above {m t : Machine} (h : run mode ctx m = .ok t)
    (hdepth : ∀ e ∈ history mode ctx m, e.1 ≠ .op Opcode.depth) (base altBase : Stack) :
    run mode ctx (m.above base altBase) = .ok (t.above base altBase) ∧
      history mode ctx (m.above base altBase) = history mode ctx m := by
  induction m using run_induction mode ctx with
  | nil s alt =>
      rw [run_nil] at h
      obtain rfl := Except.ok.inj h
      exact ⟨run_nil mode ctx _ _, (history_nil _ _).trans (history_nil _ _).symm⟩
  | cons s alt c rest ih =>
      obtain ⟨u, hu, ht⟩ := run_cons_eq_ok_iff.mp h
      rw [history_of_step_ok hu, List.forall_mem_cons] at hdepth
      have hstep : step mode ctx ⟨s ++ base, alt ++ altBase, rest⟩ c = .ok (u.above base altBase) :=
        step_above (m := ⟨s, alt, rest⟩) hdepth.1 hu base altBase
      obtain ⟨hrun, hhistory⟩ := ih u hu ht hdepth.2
      constructor
      · exact run_cons_eq_ok_iff.mpr ⟨_, hstep, hrun⟩
      · show history mode ctx ⟨s ++ base, alt ++ altBase, c :: rest⟩ = _
        rw [history_of_step_ok hstep, history_of_step_ok hu, hhistory]

/-- The script hash of a script that moves an element to the other stack. -/
def lockedMove : Script := (Payee.scriptHash (Digests.hash160 [Opcode.toAlt])).script

/-- What a conditional chooses from, in front of that script hash: the script, or a failure. -/
def guardedMove : Script :=
  [.data [Opcode.toAlt], .op Opcode.orElse, .op Opcode.fail, .op Opcode.endIf] ++ lockedMove

omit [Digests] in
/-- A run that cuts a conditional down to its first part, takes the pushed byte for a script, and
    moves an element to the other stack. -/
theorem run_above_redeeming :
    @run Digests.standard .on (.final 0)
        ⟨[[1], [5]], [], .op Opcode.ifTrue :: @guardedMove Digests.standard⟩
      = .ok ⟨[], [[5]], []⟩ ∧
    (∀ e ∈ @history Digests.standard .on (.final 0)
        ⟨[[1], [5]], [], .op Opcode.ifTrue :: @guardedMove Digests.standard⟩,
      e.1 ≠ .op Opcode.depth) ∧
    @run Digests.standard .on (.final 0)
        ⟨[[1], [5], [9]], [[8]], .op Opcode.ifTrue :: @guardedMove Digests.standard⟩
      = .ok ⟨[[9]], [[5], [8]], []⟩ ∧
    @history Digests.standard .on (.final 0)
        ⟨[[1], [5], [9]], [[8]], .op Opcode.ifTrue :: @guardedMove Digests.standard⟩
      = @history Digests.standard .on (.final 0)
        ⟨[[1], [5]], [], .op Opcode.ifTrue :: @guardedMove Digests.standard⟩ := by
  let _ : Digests := Digests.standard
  have hopen : step .on (.final 0) ⟨[[1], [5]], [], guardedMove⟩ (.op Opcode.ifTrue)
      = .ok ⟨[[5]], [], .data [Opcode.toAlt] :: lockedMove⟩ := rfl
  have hredeem : step .on (.final 0) ⟨[[5]], [], lockedMove⟩ (.data [Opcode.toAlt])
      = .ok ⟨[[5]], [], [.op Opcode.toAlt]⟩ := by
    have hraw : Script.ofRaw [Opcode.toAlt] = .ok [.op Opcode.toAlt] := Script.ofRaw_op rfl
    have hlock : Script.scriptHash? lockedMove = some (Digests.hash160 [Opcode.toAlt]) :=
      Script.scriptHash?_eq_some_iff.mpr rfl
    refine (push_on_of_scriptHash?_eq_some (m := ⟨[[5]], [], lockedMove⟩) hlock
      [Opcode.toAlt]).trans ?_
    rw [redeem, if_pos rfl, hraw]
  have hmove : step .on (.final 0) ⟨[[5]], [], []⟩ (.op Opcode.toAlt) = .ok ⟨[], [[5]], []⟩ := rfl
  have hrun : run .on (.final 0) ⟨[[1], [5]], [], .op Opcode.ifTrue :: guardedMove⟩
      = .ok ⟨[], [[5]], []⟩ := by
    refine run_cons_eq_ok_iff.mpr ⟨_, hopen, ?_⟩
    refine run_cons_eq_ok_iff.mpr ⟨_, hredeem, ?_⟩
    exact run_cons_eq_ok_iff.mpr ⟨_, hmove, run_nil _ _ _ _⟩
  have hdepth : ∀ e ∈ history .on (.final 0)
      ⟨[[1], [5]], [], .op Opcode.ifTrue :: guardedMove⟩, e.1 ≠ .op Opcode.depth := by
    rw [history_of_step_ok hopen, history_of_step_ok hredeem, history_of_step_ok hmove, history_nil]
    simp [Opcode.ifTrue, Opcode.depth, Opcode.toAlt]
  exact ⟨hrun, hdepth, run_above hrun hdepth [[9]] [[8]]⟩

end Machine

end Bitcoin
