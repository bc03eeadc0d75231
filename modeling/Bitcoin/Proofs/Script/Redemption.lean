import Bitcoin.Proofs.Script.ScriptHash

/-!
# Which pushed bytes a run takes for scripts

The machine takes pushed bytes for a script where exactly the commands that lock to a script hash
are left. It does not know which script those commands come from: they can be the locking script,
the end of a longer one, or the end of a script that was itself taken from pushed bytes. The bytes
that a run takes are written down here in the order in which it does, whether or not they have the
hash.

Apart from taking bytes for a script, a step only drops commands. So a run takes no bytes unless
its commands hold bytes to push, and behind them the commands that lock to a script hash.

* **`run_on_eq_off`**: a run that takes no bytes is the plain run.
* **`redemptions_eq_nil`**: a run whose commands hold no such push takes no bytes.
* **`redemptions_append`**: what is taken behind an unlocking script is taken by the locking script.
* **`redemptions_append_redeem`**: what is taken behind a script that ends in a push.
-/

namespace Bitcoin

namespace Script

/-- Holds bytes to push and behind them, perhaps with others in between, the commands that lock to
    a script hash. -/
def HoldsRedemption (s : Script) : Prop :=
  ∃ (raw : Bytes) (h : Hash160), List.Sublist (.data raw :: (Payee.scriptHash h).script) s

/-- Cutting a conditional down only drops commands. -/
theorem selectPart_sublist {keep alternative : Bool} {depth : Nat} {s t : Script}
    (h : selectPart keep alternative depth s = some t) : List.Sublist t s := by
  induction s generalizing keep depth t with
  | nil => exact nomatch h
  | cons c rest ih =>
      have hkept : ∀ {d : Nat},
          (selectPart keep alternative d rest).map (consWhen keep c) = some t →
            List.Sublist t (c :: rest) := by
        intro d hk
        obtain ⟨u, hu, rfl⟩ := Option.map_eq_some_iff.mp hk
        cases keep with
        | true => exact (ih hu).cons_cons c
        | false => exact (ih hu).cons c
      rw [selectPart.eq_def] at h
      dsimp only at h
      split at h
      · exact hkept h
      · split at h
        · exact (ih h).cons c
        · split at h
          · split at h
            · obtain rfl := Option.some.inj h
              exact (List.Sublist.refl rest).cons c
            · exact hkept h
          · exact hkept h

end Script

namespace Machine

/-! ## Steps that only drop commands -/

theorem cmds_of_withStacks {m t : Machine} {attempt : Attempt (Stack × Stack)}
    (h : m.withStacks attempt = .ok t) : t.cmds = m.cmds := by
  obtain ⟨s, alt, -, rfl⟩ := withStacks_eq_ok_iff.mp h
  rfl

variable [Digests] {ctx : SpendContext}

theorem apply_sublist {op : Operation} {m t : Machine} (h : op.apply ctx m = .ok t) :
    List.Sublist t.cmds m.cmds := by
  obtain ⟨s, alt, cmds⟩ := m
  cases op with
  | push n => obtain rfl := Except.ok.inj h; exact List.Sublist.refl _
  | stack op => exact Operation.cmds_of_withStack h ▸ List.Sublist.refl _
  | alt op => exact cmds_of_withStacks h ▸ List.Sublist.refl _
  | sig op => exact Operation.cmds_of_withStack h ▸ List.Sublist.refl _
  | lock op => exact Operation.cmds_of_withStack h ▸ List.Sublist.refl _
  | unsupported => cases h
  | flow op =>
      cases s with
      | nil => cases h
      | cons top s =>
          rw [Operation.apply, FlowOp.apply] at h
          cases hb : Script.branch (op.takesFirst (ScriptNumber.isTrue top)) cmds with
          | none => rw [hb] at h; cases h
          | some rest =>
              rw [hb] at h
              obtain rfl := Except.ok.inj h
              exact Script.selectPart_sublist hb

/-- Without redemption a step only drops commands. -/
theorem step_off_sublist {m t : Machine} {c : Command} (h : step .off ctx m c = .ok t) :
    List.Sublist t.cmds m.cmds := by
  cases c with
  | data bs =>
      have hpush : m.push .off bs = .ok t := h
      rw [push_off] at hpush
      obtain rfl := Except.ok.inj hpush
      exact List.Sublist.refl _
  | op code =>
      have hperform : m.perform ctx code = .ok t := h
      cases hop : Operation.ofCode? code with
      | none =>
          obtain ⟨e, he⟩ := perform_of_ofCode?_eq_none hop
          rw [he] at hperform
          exact nomatch hperform
      | some op =>
          rw [perform_of_ofCode?_eq_some hop] at hperform
          cases happly : op.apply ctx m with
          | error u => rw [happly] at hperform; exact nomatch hperform
          | ok u =>
              rw [happly] at hperform
              obtain rfl := Except.ok.inj hperform
              exact apply_sublist happly

/-! ## The bytes that are taken -/

/-- The bytes that a command in front of others hands over to be taken for a script. -/
def handed : Command → Script → List Bytes
  | .op _, _ => []
  | .data bs, rest => if (Script.scriptHash? rest).isSome then [bs] else []

omit [Digests] in
/-- Bytes are handed over in front of the commands that lock to a script hash, and nowhere else. -/
theorem handed_cases (c : Command) (rest : Script) :
    handed c rest = [] ∨ ∃ (raw : Bytes) (h : Hash160),
      handed c rest = [raw] ∧ c = .data raw ∧ rest = (Payee.scriptHash h).script := by
  cases c with
  | op code => exact .inl rfl
  | data bs =>
      cases hs : Script.scriptHash? rest with
      | none =>
          left
          rw [handed, hs]
          rfl
      | some h =>
          refine .inr ⟨bs, h, ?_, rfl, Script.scriptHash?_eq_some_iff.mp hs⟩
          rw [handed, hs]
          rfl

/-- The bytes that a run takes for scripts, in the order in which it does. -/
def redemptions (ctx : SpendContext) (m : Machine) : List Bytes :=
  (history .on ctx m).flatMap fun e => handed e.1 e.2

/-- The bytes that are taken after a step, when there is a machine after it. -/
def redemptionsAfter (ctx : SpendContext) (after : Except Script.Failure Machine) : List Bytes :=
  (historyAfter .on ctx after).flatMap fun e => handed e.1 e.2

/-- Without commands no bytes are taken. -/
theorem redemptions_nil (s alt : Stack) : redemptions ctx ⟨s, alt, []⟩ = [] := by
  rw [redemptions, history_nil, List.flatMap_nil]

/-- What the first command hands over comes before what is taken after its step. -/
theorem redemptions_cons (s alt : Stack) (c : Command) (rest : Script) :
    redemptions ctx ⟨s, alt, c :: rest⟩
      = handed c rest ++ redemptionsAfter ctx (step .on ctx ⟨s, alt, rest⟩ c) := by
  rw [redemptions, history_cons, List.flatMap_cons]
  rfl

/-- A step that hands nothing over is a plain step. -/
theorem step_on_eq_off {m : Machine} {c : Command} (h : handed c m.cmds = []) :
    step .on ctx m c = step .off ctx m c := by
  cases c with
  | op code => rfl
  | data bs =>
      have hnone : Script.scriptHash? m.cmds = none := by
        cases hs : Script.scriptHash? m.cmds with
        | none => rfl
        | some hash =>
            rw [handed, hs] at h
            exact nomatch h
      show m.push .on bs = m.push .off bs
      rw [push_off, push_of_scriptHash?_eq_none hnone]

/-- A run that takes no bytes is the plain run. -/
theorem run_on_eq_off {m : Machine} (h : redemptions ctx m = []) :
    m.run .on ctx = m.run .off ctx := by
  induction m using run_induction .on ctx with
  | nil s alt => rw [run_nil, run_nil]
  | cons s alt c rest ih =>
      rw [redemptions_cons, List.append_eq_nil_iff] at h
      obtain ⟨hnone, hafter⟩ := h
      have hstep : step .on ctx ⟨s, alt, rest⟩ c = step .off ctx ⟨s, alt, rest⟩ c :=
        step_on_eq_off (m := ⟨s, alt, rest⟩) hnone
      rw [run_cons, run_cons, ← hstep]
      cases hu : step .on ctx ⟨s, alt, rest⟩ c with
      | error e => rfl
      | ok u =>
          rw [hu] at hafter
          exact ih u hu hafter

/-- A run whose commands hold no push in front of those that lock to a script hash takes no
    bytes. -/
theorem redemptions_eq_nil {m : Machine} (h : ¬ Script.HoldsRedemption m.cmds) :
    redemptions ctx m = [] := by
  -- along the run: until bytes are taken, what is left is part of what was there
  induction m using run_induction .on ctx with
  | nil s alt => exact redemptions_nil s alt
  | cons s alt c rest ih =>
      have hnone : handed c rest = [] := by
        rcases handed_cases c rest with hnone | ⟨raw, hash, -, rfl, rfl⟩
        · exact hnone
        · exact absurd ⟨raw, hash, List.Sublist.refl _⟩ h
      have hstep : step .on ctx ⟨s, alt, rest⟩ c = step .off ctx ⟨s, alt, rest⟩ c :=
        step_on_eq_off (m := ⟨s, alt, rest⟩) hnone
      rw [redemptions_cons, hnone, List.nil_append]
      cases hu : step .on ctx ⟨s, alt, rest⟩ c with
      | error e => rfl
      | ok u =>
          have hsub : List.Sublist u.cmds rest := step_off_sublist (hstep ▸ hu)
          refine ih u hu ?_
          rintro ⟨raw, hash, hraw⟩
          exact h ⟨raw, hash, (hraw.trans hsub).cons c⟩

/-! ## One script behind another -/

/-- What is taken behind commands that run alone is taken by the script behind them. -/
theorem redemptions_append {b : Script} (hb : b.Balanced)
    (hp : ∀ h : Hash160, ¬ b <:+ (Payee.scriptHash h).script) (m : Machine) :
    redemptions ctx (m.append b)
      = redemptionsAfter ctx ((m.run .off ctx).map fun t => ⟨t.stack, t.alt, b⟩) := by
  induction m using run_induction .off ctx with
  | nil s alt =>
      rw [run_nil]
      rfl
  | cons s alt c rest ih =>
      have hnone : handed c (rest ++ b) = [] := by
        rcases handed_cases c (rest ++ b) with hnone | ⟨raw, hash, -, -, hrest⟩
        · exact hnone
        · exact absurd ⟨rest, hrest⟩ (hp hash)
      have hstep : step .on ctx ⟨s, alt, rest ++ b⟩ c
          = (step .off ctx ⟨s, alt, rest⟩ c).map (·.append b) :=
        step_append hb hp ctx ⟨s, alt, rest⟩ c
      show redemptions ctx ⟨s, alt, c :: (rest ++ b)⟩ = _
      rw [redemptions_cons, hnone, List.nil_append, hstep, run_cons]
      cases hu : step .off ctx ⟨s, alt, rest⟩ c with
      | error e => rfl
      | ok u => exact ih u hu

/-- In front of the script that locks to a script hash the pushed bytes are taken first. -/
theorem redemptions_redeem {s alt : Stack} {raw : Bytes} {h : Hash160} :
    redemptions ctx ⟨s, alt, .data raw :: (Payee.scriptHash h).script⟩
      = raw :: redemptionsAfter ctx (redeem h raw ⟨s, alt, (Payee.scriptHash h).script⟩) := by
  have hlock : Script.scriptHash? (Payee.scriptHash h).script = some h :=
    Script.scriptHash?_eq_some_iff.mpr rfl
  have hstep : step .on ctx ⟨s, alt, (Payee.scriptHash h).script⟩ (.data raw)
      = redeem h raw ⟨s, alt, (Payee.scriptHash h).script⟩ :=
    push_on_of_scriptHash?_eq_some (m := ⟨s, alt, (Payee.scriptHash h).script⟩) hlock raw
  rw [redemptions_cons, handed, hlock, hstep]
  rfl

/-- Behind a script that ends in a push, the pushed bytes are the first that are taken, and
    whatever is taken later is taken by the script that they are made of. -/
theorem redemptions_append_redeem {a : Script} {raw : Bytes} {h : Hash160} :
    redemptions ctx (start ((a ++ [.data raw]) ++ (Payee.scriptHash h).script))
      = match (start a).run .off ctx with
        | .error _ => []
        | .ok t => raw :: redemptionsAfter ctx
            (redeem h raw ⟨t.stack, t.alt, (Payee.scriptHash h).script⟩) := by
  have hlong : 3 < (Command.data raw :: (Payee.scriptHash h).script).length := by
    show 3 < 4
    decide
  have hend := Script.not_suffix_scriptHash hlong
  have hassoc : (a ++ [.data raw]) ++ (Payee.scriptHash h).script
      = a ++ .data raw :: (Payee.scriptHash h).script := List.append_assoc a [.data raw] _
  rw [hassoc]
  refine (redemptions_append Script.balanced_data_scriptHash hend (start a)).trans ?_
  cases (start a).run .off ctx with
  | error e => rfl
  | ok t => exact redemptions_redeem

/-- What is taken after a push in front of the script that locks to a script hash. -/
theorem redemptionsAfter_redeem {s alt : Stack} {raw : Bytes} {h : Hash160} {cmds : Script}
    (hraw : Script.ofRaw raw = .ok cmds) (hnone : ¬ cmds.HoldsRedemption) :
    redemptionsAfter ctx (redeem h raw ⟨s, alt, (Payee.scriptHash h).script⟩) = [] := by
  cases hredeem : redeem h raw ⟨s, alt, (Payee.scriptHash h).script⟩ with
  | error e => rfl
  | ok t =>
      obtain ⟨-, cmds', hraw', rfl⟩ := redeem_eq_ok_iff.mp hredeem
      obtain rfl := Except.ok.inj (hraw.symm.trans hraw')
      exact redemptions_eq_nil hnone

end Machine

end Bitcoin
