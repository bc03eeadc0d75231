import Bitcoin.Proofs.Runner
import Bitcoin.Proofs.Script.ScriptHash
import Bitcoin.Transaction.Spending

/-!
# Spending from a script hash

Two parts of the library look for the redeem script. The check of an input takes the last push of
the input's own script, to know what its signatures sign; the machine takes the bytes that it
pushes in front of the script that locks to the hash. These are the same bytes: no script that
ends in a push can hide that push in a conditional, and no other push stands in front of the
locking script. So the digest that the redeem script sees is the one of the redeem script that
runs.

* **`redeemScript?_eq_some_iff`**: the redeem script is what the last push is made of.
* **`unlocks_eq_ok_iff`**: an input unlocks a script when the digest can be made and the scripts
  succeed.
* **`verifyInput_scriptHash_iff`**: when an input that spends from a script hash is valid.
-/

namespace Bitcoin

/-- The redeem script is what the last push of an input is made of. -/
theorem TxIn.redeemScript?_eq_some_iff {input : TxIn} {cmds : Script} :
    input.redeemScript? = some cmds ↔
      ∃ a raw, input.scriptSig = a ++ [.data raw] ∧ Script.ofRaw raw = .ok cmds := by
  rw [redeemScript?]
  constructor
  · intro h
    split at h
    · next raw hlast =>
        obtain ⟨a, ha⟩ := List.getLast?_eq_some_iff.mp hlast
        cases hraw : Script.ofRaw raw with
        | error e =>
            rw [hraw] at h
            exact nomatch h
        | ok cmds' =>
            rw [hraw] at h
            obtain rfl := Option.some.inj h
            exact ⟨a, raw, ha, hraw⟩
    · exact nomatch h
  · rintro ⟨a, raw, ha, hraw⟩
    rw [ha, List.getLast?_concat]
    dsimp only
    rw [hraw]
    rfl

/-- A script evaluates to true when it is executed without an error. -/
theorem Script.evaluate_eq_true_iff [Digests] {ctx : SpendContext} {s : Script} :
    s.evaluate ctx = true ↔ s.execute ctx = .ok () := by
  rw [evaluate]
  cases s.execute ctx with
  | error e =>
      constructor
      · intro h
        exact nomatch h
      · intro h
        exact nomatch h
  | ok u => exact ⟨fun _ => rfl, fun _ => rfl⟩

namespace Tx

section

variable [Digests] {σ : Type} {resolve : Resolver (StateM σ)} {tx : Tx} {i : Nat} {input : TxIn}
  {lock : Script} {s s' : σ}

/-- An input unlocks a script when the digest can be made and the two scripts succeed. -/
theorem unlocks_eq_ok_iff {redeem : Option Script} :
    ((tx.unlocks resolve i input lock redeem).run.run s).1 = .ok true ↔
      ∃ z, ((tx.sigHash resolve i redeem).run.run s).1 = .ok z ∧
        (input.scriptSig ++ lock).execute (tx.spendContext input z) = .ok () := by
  rw [unlocks, Lookup.bind_eq_ok_iff]
  constructor
  · rintro ⟨z, t, hz, heval⟩
    have htrue : Script.evaluate (tx.spendContext input z) (input.scriptSig ++ lock) = true :=
      Except.ok.inj heval
    exact ⟨z, congrArg Prod.fst hz, Script.evaluate_eq_true_iff.mp htrue⟩
  · rintro ⟨z, hz, hexec⟩
    refine ⟨z, _, Prod.ext hz rfl, ?_⟩
    exact congrArg Except.ok (Script.evaluate_eq_true_iff.mpr hexec)

/-- The check of an input that spends from a script hash, after the spent output has been found. -/
theorem verifyInput_of_scriptHash {h : Hash160} (hinput : tx.inputs[i]? = some input)
    (hlock : (input.scriptPubKey resolve tx.network).run.run s
      = (.ok (Payee.scriptHash h).script, s')) :
    (tx.verifyInput resolve i).run.run s
      = match input.redeemScript? with
        | none => (.ok false, s')
        | some cmds =>
            (tx.unlocks resolve i input (Payee.scriptHash h).script (some cmds)).run.run s' := by
  rw [verifyInput, hinput]
  -- the lookup comes first, and leaves its state to the rest
  refine (Lookup.run_bind_of_ok hlock).trans ?_
  rw [Script.scriptHash?_eq_some_iff.mpr rfl]
  cases input.redeemScript? with
  | none => rfl
  | some cmds => rfl

/-- An input that spends from a script hash is valid exactly when its script ends in a push of
    bytes with that hash, the bytes are a script, the digest for that script can be made, the
    commands before the push run alone to their end, and the script succeeds from the stacks that
    they leave, with that digest, the lock time and the version of the transaction, and the
    sequence of the input. -/
theorem verifyInput_scriptHash_iff {h : Hash160} (hinput : tx.inputs[i]? = some input)
    (hlock : (input.scriptPubKey resolve tx.network).run.run s
      = (.ok (Payee.scriptHash h).script, s')) :
    ((tx.verifyInput resolve i).run.run s).1 = .ok true ↔ ∃ a raw cmds z stack alt,
      input.scriptSig = a ++ [.data raw] ∧ Script.ofRaw raw = .ok cmds ∧
        Digests.hash160 raw = h ∧ ((tx.sigHash resolve i (some cmds)).run.run s').1 = .ok z ∧
        (Machine.start a).run .off ⟨z, tx.lockTime, input.sequence, tx.version⟩
          = .ok ⟨stack, alt, []⟩ ∧
        Machine.execute ⟨z, tx.lockTime, input.sequence, tx.version⟩ ⟨stack, alt, cmds⟩
          = .ok () := by
  rw [verifyInput_of_scriptHash hinput hlock]
  constructor
  · intro hvalid
    cases hredeem : input.redeemScript? with
    | none =>
        rw [hredeem] at hvalid
        exact nomatch hvalid
    | some cmds =>
        rw [hredeem] at hvalid
        obtain ⟨a, raw, hsig, hraw⟩ := TxIn.redeemScript?_eq_some_iff.mp hredeem
        obtain ⟨z, hz, hexec⟩ := unlocks_eq_ok_iff.mp hvalid
        rw [hsig] at hexec
        obtain ⟨hhash, cmds', hraw', stack, alt, hrun, hrest⟩ :=
          Script.execute_append_redeem_eq_ok_iff.mp hexec
        -- the machine reads the same bytes as the check, so it runs the same script
        obtain rfl : cmds = cmds' := Except.ok.inj (hraw.symm.trans hraw')
        exact ⟨a, raw, cmds, z, stack, alt, hsig, hraw, hhash, hz, hrun, hrest⟩
  · rintro ⟨a, raw, cmds, z, stack, alt, hsig, hraw, hhash, hz, hrun, hrest⟩
    rw [TxIn.redeemScript?_eq_some_iff.mpr ⟨a, raw, hsig, hraw⟩]
    refine unlocks_eq_ok_iff.mpr ⟨z, hz, ?_⟩
    rw [hsig]
    exact Script.execute_append_redeem_eq_ok_iff.mpr ⟨hhash, cmds, hraw, stack, alt, hrun, hrest⟩

end

/-- Finds a transaction with one output, which is locked to the script hash of zeros. -/
def zeroHashResolver : Resolver (StateM Unit) := fun _ net =>
  pure ⟨1, [], [⟨1000, (Payee.scriptHash (FixedBytes.zero 20)).script⟩], 0, net⟩

/-- An input that spends that output with a script that pushes one. -/
def zeroHashInput : TxIn := ⟨⟨FixedBytes.zero 32, 0⟩, [.data [Opcode.pushOne]], 0xffffffff⟩

/-- A transaction with that input. -/
def zeroHashSpending : Tx := ⟨1, [zeroHashInput], [], 0, .main⟩

/-- An input that is locked to the script hash of zeros. -/
theorem verifyInput_scriptHash_iff_zero :
    zeroHashSpending.inputs[0]? = some zeroHashInput ∧
      (zeroHashInput.scriptPubKey zeroHashResolver .main).run.run ()
        = (.ok (Payee.scriptHash (FixedBytes.zero 20)).script, ()) ∧
      (((@verifyInput _ _ Digests.standard zeroHashResolver zeroHashSpending 0).run.run ()).1
          = .ok true ↔ ∃ a raw cmds z stack alt,
        zeroHashInput.scriptSig = a ++ [.data raw] ∧ Script.ofRaw raw = .ok cmds ∧
          Digests.standard.hash160 raw = FixedBytes.zero 20 ∧
          ((@sigHash _ _ Digests.standard zeroHashResolver zeroHashSpending 0
            (some cmds)).run.run ()).1 = .ok z ∧
          @Machine.run Digests.standard .off ⟨z, 0, 0xffffffff, 1⟩ (Machine.start a)
            = .ok ⟨stack, alt, []⟩ ∧
          @Machine.execute Digests.standard ⟨z, 0, 0xffffffff, 1⟩ ⟨stack, alt, cmds⟩ = .ok ()) :=
  ⟨rfl, rfl, @verifyInput_scriptHash_iff Digests.standard Unit zeroHashResolver zeroHashSpending 0
    zeroHashInput () () (FixedBytes.zero 20) rfl rfl⟩

end Tx

end Bitcoin
