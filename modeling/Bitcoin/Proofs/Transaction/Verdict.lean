import Bitcoin.Proofs.Runner
import Bitcoin.Proofs.Transaction.Preimage
import Bitcoin.Proofs.Transaction.Redemption

/-!
# Checking and signing without lookups

The check of an input and its signing look up the same output several times. When every lookup of
it gives the same answer, both come down to functions of that answer: the number that is signed, the
verdict on the input, and the script that unlocks it. These cannot fail for want of a transaction,
only for a push that is too long to be written, so it is plain from them when there is a verdict.

* **`settles_verifyInput`**, **`settles_signInput`**: the programs come down to these functions.
* **`exists_verdict_iff`**: an input gets a verdict exactly when what is signed can be written.
-/

namespace Bitcoin

/-- The output at an outpoint, in the transaction that has been found. -/
def Outpoint.pick (p : Outpoint) (tx : Tx) : Except Error TxOut :=
  match tx.outputs[p.index.toNat]? with
  | some output => .ok output
  | none => .error (.malformed (.missingOutput p.txid p.index))

namespace Tx

/-- The same transaction, with another script in one input if one is given. -/
def putScriptSig (tx : Tx) (index : Nat) : Option Script → Tx
  | none => tx
  | some s => tx.setScriptSig index s

section

variable [Digests]

/-- The number that a signature of an input signs for a script. -/
def digest (tx : Tx) (index : Nat) (code : Script) : Except Error Int := do
  return beValue (Digests.hash256 (← tx.preimage index code)).toBytes

/-- The answer to the check of an input that spends an output with the given locking script. -/
def verdict (tx : Tx) (index : Nat) (input : TxIn) (lock : Script) : Except Error Bool :=
  match input.signing? lock with
  | none => .ok false
  | some redeem => do
      let z ← tx.digest index (redeem.getD lock)
      return Script.evaluate (tx.spendContext input z) (input.scriptSig ++ lock)

/-- What the signing of an input gives and the script that it puts in, from the answer to the lookup
    of the locking script. -/
def signing (tx : Tx) (index : Nat) (input : TxIn) (key : PrivateKey) (lock : Except Error Script) :
    Option (Except Error Bool × Option Script) :=
  match lock.bind (tx.digest index) with
  | .error e => some (.error e, none)
  | .ok z =>
      match key.unlockingScript z with
      | none => none
      | some (.error e) => some (.error e, none)
      | some (.ok s) => some (lock.bind (tx.verdict index { input with scriptSig := s }), some s)

variable {m : Type → Type} [Monad m] {σ : Type} {R : Runner m σ} {S : σ → Prop}
  {resolve : Resolver m} {tx : Tx} {i : Nat} {input : TxIn} {lock : Except Error Script}

/-! ## They do not depend on the scripts of the inputs -/

/-- What is signed does not include the scripts of the inputs. -/
theorem digest_congr {other : Tx} (h : tx.SignedAlike other) (i : Nat) (code : Script) :
    tx.digest i code = other.digest i code := by
  rw [digest, digest, preimage_congr h]

/-- The verdict on an input sees no script of another. -/
theorem verdict_congr {other : Tx} (h : tx.SignedAlike other) (i : Nat) (input : TxIn) :
    tx.verdict i input = other.verdict i input := by
  have hctx : tx.spendContext input = other.spendContext input := by
    funext z
    rw [spendContext, spendContext, h.lockTime, h.version]
  funext code
  simp only [verdict, hctx, digest_congr h]

/-- Neither does the signing of an input. -/
theorem signing_congr {other : Tx} (h : tx.SignedAlike other) (i : Nat) (input : TxIn)
    (key : PrivateKey) (lock : Except Error Script) :
    tx.signing i input key lock = other.signing i input key lock := by
  have hdigest : tx.digest i = other.digest i := funext (digest_congr h i)
  simp only [signing, hdigest, verdict_congr h]

/-! ## The programs come down to these functions -/

omit [Digests] in
/-- The output at an outpoint, from the answer to the lookup of the transaction. -/
theorem settles_output {p : Outpoint} {net : Network} {found : Except Error Tx}
    (h : R.Settles S (resolve p.txid net).run found) :
    R.Settles S (p.output resolve net).run (found.bind p.pick) := by
  refine Runner.Settles.except_bind h fun tx _ => ?_
  rw [Outpoint.pick]
  cases tx.outputs[p.index.toNat]? with
  | none => exact Runner.settles_pure _
  | some output => exact Runner.settles_pure _

omit [Digests] in
/-- The locking script that an input spends, from the answer to the lookup of the output. -/
theorem settles_scriptPubKey {net : Network} {found : Except Error TxOut}
    (h : R.Settles S (input.spends.output resolve net).run found) :
    R.Settles S (input.scriptPubKey resolve net).run
      (found.bind fun output => .ok output.scriptPubKey) :=
  Runner.Settles.except_bind h fun _ _ => Runner.settles_pure _

theorem settles_signed (tx : Tx) (i : Nat) (code : Script) : R.Settles S (do
    let bytes ← Resolver.settle (tx.preimage i code)
    return (beValue (Digests.hash256 bytes).toBytes : Int) : ExceptT Error m Int).run
    (tx.digest i code) :=
  Runner.Settles.except_bind (Runner.settles_pure _) fun _ _ => Runner.settles_pure _

/-- With a redeem script nothing is looked up for the digest. -/
theorem settles_sigHash_redeem (hinput : tx.inputs[i]? = some input) (code : Script) :
    R.Settles S (tx.sigHash resolve i (some code)).run (tx.digest i code) := by
  have hcode : R.Settles S (pure code : ExceptT Error m Script).run (.ok code) :=
    Runner.settles_pure _
  rw [sigHash, hinput]
  exact Runner.Settles.except_bind hcode fun s _ => settles_signed tx i s

/-- Without one the digest is made over the locking script that is looked up. -/
theorem settles_sigHash (hinput : tx.inputs[i]? = some input)
    (hlock : R.Settles S (input.scriptPubKey resolve tx.network).run lock) :
    R.Settles S (tx.sigHash resolve i none).run (lock.bind (tx.digest i)) := by
  rw [sigHash, hinput]
  exact Runner.Settles.except_bind hlock fun s _ => settles_signed tx i s

/-- The check of an input gives the verdict on it. -/
theorem settles_verifyInput (hinput : tx.inputs[i]? = some input)
    (hlock : R.Settles S (input.scriptPubKey resolve tx.network).run lock) :
    R.Settles S (tx.verifyInput resolve i).run (lock.bind (tx.verdict i input)) := by
  rw [verifyInput, hinput]
  refine Runner.Settles.except_bind hlock fun code hcode => ?_
  have hsig : ∀ redeem, R.Settles S (tx.sigHash resolve i redeem).run
      (tx.digest i (redeem.getD code)) := by
    intro redeem
    cases redeem with
    | none =>
        have hlookup := settles_sigHash hinput hlock
        rwa [hcode] at hlookup
    | some redeem => exact settles_sigHash_redeem hinput redeem
  have hunlocks : ∀ redeem, R.Settles S (tx.unlocks resolve i input code redeem).run (do
      let z ← tx.digest i (redeem.getD code)
      return Script.evaluate (tx.spendContext input z) (input.scriptSig ++ code)) := fun redeem =>
    Runner.Settles.except_bind (hsig redeem) fun _ _ => Runner.settles_pure _
  rw [verdict, TxIn.signing?]
  cases Script.scriptHash? code with
  | none => exact hunlocks none
  | some h =>
      cases input.redeemScript? with
      | none => exact Runner.settles_pure _
      | some redeem => exact hunlocks (some redeem)

/-- The signing of an input gives and puts in what is made of the answer to the lookup. -/
theorem settles_signInput (hinput : tx.inputs[i]? = some input)
    (hlock : R.Settles S (input.scriptPubKey resolve tx.network).run lock) (key : PrivateKey) :
    R.Settles S (tx.signInput resolve i key)
      ((tx.signing i input key lock).map fun r => (r.1, tx.putScriptSig i r.2)) := by
  rw [signInput, signing]
  refine Runner.Settles.bind (settles_sigHash hinput hlock) ?_
  cases lock.bind (tx.digest i) with
  | error e => exact Runner.settles_pure _
  | ok z =>
      dsimp only
      cases key.unlockingScript z with
      | none => exact Runner.settles_pure _
      | some unlocking => cases unlocking with
        | error e => exact Runner.settles_pure _
        | ok s =>
            have hcheck := settles_verifyInput (getElem?_setScriptSig hinput s) hlock
            rw [← verdict_congr (signedAlike_setScriptSig tx i s)] at hcheck
            exact Runner.Settles.bind hcheck (Runner.settles_pure _)

/-- An input that is not there is not signed. -/
theorem settles_signInput_of_none (h : tx.inputs[i]? = none) (key : PrivateKey) :
    R.Settles S (tx.signInput resolve i key) (some (.error (.noSuchInput i), tx)) := by
  have hsig : R.Settles S (tx.sigHash resolve i none).run (.error (.noSuchInput i)) := by
    rw [sigHash, h]
    exact Runner.settles_pure _
  exact Runner.Settles.bind hsig (Runner.settles_pure _)

/-! ## When there is a verdict -/

/-- There is a digest exactly when the scripts that are signed can be written. -/
theorem exists_digest_iff {code : Script} (hi : i < tx.inputs.length) :
    (∃ z, tx.digest i code = .ok z) ↔
      code.Writable ∧ ∀ output ∈ tx.outputs, output.scriptPubKey.Writable := by
  have hsigned := @exists_preimage_iff tx i code
  rw [forall_prop_of_true hi] at hsigned
  rw [← hsigned]
  constructor
  · rintro ⟨z, h⟩
    obtain ⟨bs, hbs, -⟩ := Except.bind_eq_ok_iff.mp h
    exact ⟨bs, hbs⟩
  · rintro ⟨bs, hbs⟩
    exact ⟨_, Except.bind_eq_ok_iff.mpr ⟨bs, hbs, rfl⟩⟩

/-- An input gets a verdict exactly when what its signatures sign can be written. -/
theorem exists_verdict_iff {code : Script} (hi : i < tx.inputs.length) :
    (∃ b, tx.verdict i input code = .ok b) ↔ ∀ redeem, input.signing? code = some redeem →
      (redeem.getD code).Writable ∧ ∀ output ∈ tx.outputs, output.scriptPubKey.Writable := by
  rw [verdict]
  cases input.signing? code with
  | none =>
      constructor
      · intro _ redeem hredeem
        exact nomatch hredeem
      · intro _
        exact ⟨false, rfl⟩
  | some redeem =>
      dsimp only
      constructor
      · rintro ⟨b, h⟩ _ ⟨⟩
        obtain ⟨z, hz, -⟩ := Except.bind_eq_ok_iff.mp h
        exact (exists_digest_iff hi).mp ⟨z, hz⟩
      · intro h
        obtain ⟨z, hz⟩ := (exists_digest_iff hi).mpr (h redeem rfl)
        exact ⟨_, Except.bind_eq_ok_iff.mpr ⟨z, hz, rfl⟩⟩

end

end Tx

end Bitcoin
