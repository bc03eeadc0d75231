import Bitcoin.Proofs.Script.Concatenation

/-!
# Coins locked to a script hash

A push in front of the script that locks to a script hash is the one place where the machine takes
bytes for a script. When the bytes have the hash, their commands take the place of the locking
script, and the stacks are as they were before the push. The push that this happens to is the last
command of the unlocking script: with it the locking script is balanced and too long to be an end
of a locking script, so whatever stands in front of it runs alone.

* **`execute_redeem_eq_ok_iff`**: what the push and the locking script do to any stacks.
* **`execute_append_redeem_eq_ok_iff`**: when a script that ends in a push unlocks a script hash.
-/

namespace Bitcoin

variable [Digests] {ctx : SpendContext} {raw : Bytes} {h : Hash160}

namespace Machine

/-- A push is redeemed when its digest is the demanded one and it is a script, whose commands come
    next. -/
theorem redeem_eq_ok_iff {m t : Machine} :
    m.redeem h raw = .ok t ↔
      Digests.hash160 raw = h ∧ ∃ cmds, Script.ofRaw raw = .ok cmds ∧ t = ⟨m.stack, m.alt, cmds⟩ := by
  rw [redeem]
  by_cases hhash : Digests.hash160 raw = h
  · rw [if_pos hhash]
    cases Script.ofRaw raw with
    | error e =>
        constructor
        · intro hredeem
          exact nomatch hredeem
        · rintro ⟨-, cmds, hraw, -⟩
          exact nomatch hraw
    | ok cmds =>
        constructor
        · intro hredeem
          exact ⟨hhash, cmds, rfl, (Except.ok.inj hredeem).symm⟩
        · rintro ⟨-, cmds', hraw, rfl⟩
          obtain rfl := Except.ok.inj hraw
          rfl
  · rw [if_neg hhash]
    constructor
    · intro hredeem
      exact nomatch hredeem
    · rintro ⟨hsame, -⟩
      exact absurd hsame hhash

/-- A push in front of the script that locks to a script hash: the bytes have the hash, and their
    commands succeed from the stacks that were there before the push. -/
theorem execute_redeem_eq_ok_iff {s alt : Stack} :
    execute ctx ⟨s, alt, .data raw :: (Payee.scriptHash h).script⟩ = .ok () ↔
      Digests.hash160 raw = h ∧ ∃ cmds, Script.ofRaw raw = .ok cmds ∧
        execute ctx ⟨s, alt, cmds⟩ = .ok () := by
  have hstep : step .on ctx ⟨s, alt, (Payee.scriptHash h).script⟩ (.data raw)
      = redeem h raw ⟨s, alt, (Payee.scriptHash h).script⟩ :=
    push_on_of_scriptHash?_eq_some (m := ⟨s, alt, (Payee.scriptHash h).script⟩)
      (Script.scriptHash?_eq_some_iff.mpr rfl) raw
  have hexec : execute ctx ⟨s, alt, .data raw :: (Payee.scriptHash h).script⟩
      = (redeem h raw ⟨s, alt, (Payee.scriptHash h).script⟩).bind (execute ctx) := by
    rw [execute, run_cons, hstep]
    cases redeem h raw ⟨s, alt, (Payee.scriptHash h).script⟩ with
    | error e => rfl
    | ok t => rfl
  rw [hexec, Except.bind_eq_ok_iff]
  constructor
  · rintro ⟨t, hredeem, hrest⟩
    obtain ⟨hhash, cmds, hraw, rfl⟩ := redeem_eq_ok_iff.mp hredeem
    exact ⟨hhash, cmds, hraw, hrest⟩
  · rintro ⟨hhash, cmds, hraw, hrest⟩
    exact ⟨_, redeem_eq_ok_iff.mpr ⟨hhash, cmds, hraw, rfl⟩, hrest⟩

end Machine

namespace Script

omit [Digests] in
/-- A push and the script that locks to a script hash have no conditionals. -/
theorem balanced_data_scriptHash : Balanced (Command.data raw :: (Payee.scriptHash h).script) := rfl

/-- A script that ends in a push unlocks a script hash exactly when the pushed bytes have the hash
    and are a script that succeeds from where the commands before the push end alone. -/
theorem execute_append_redeem_eq_ok_iff {a : Script} :
    execute ctx ((a ++ [.data raw]) ++ (Payee.scriptHash h).script) = .ok () ↔
      Digests.hash160 raw = h ∧ ∃ cmds, ofRaw raw = .ok cmds ∧ ∃ s alt,
        (Machine.start a).run .off ctx = .ok ⟨s, alt, []⟩ ∧
          Machine.execute ctx ⟨s, alt, cmds⟩ = .ok () := by
  have hlong : 3 < (Command.data raw :: (Payee.scriptHash h).script).length := by
    show 3 < 4
    decide
  have happend := Machine.execute_append_eq_ok_iff balanced_data_scriptHash
    (not_suffix_scriptHash hlong) ctx (Machine.start a)
  have hassoc : (a ++ [.data raw]) ++ (Payee.scriptHash h).script
      = a ++ .data raw :: (Payee.scriptHash h).script := List.append_assoc a [.data raw] _
  rw [hassoc]
  refine happend.trans ?_
  constructor
  · rintro ⟨s, alt, hrun, hexec⟩
    obtain ⟨hhash, cmds, hraw, hrest⟩ := Machine.execute_redeem_eq_ok_iff.mp hexec
    exact ⟨hhash, cmds, hraw, s, alt, hrun, hrest⟩
  · rintro ⟨hhash, cmds, hraw, s, alt, hrun, hrest⟩
    exact ⟨s, alt, hrun, Machine.execute_redeem_eq_ok_iff.mpr ⟨hhash, cmds, hraw, hrest⟩⟩

end Script

end Bitcoin
