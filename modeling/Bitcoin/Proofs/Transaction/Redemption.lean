import Bitcoin.Proofs.Script.Redemption
import Bitcoin.Proofs.Transaction.ScriptHash

/-!
# Which redeem scripts the check of an input runs

The check of an input decides by the locking script whether a redeem script is signed, and takes it
from the last push of the input. The machine decides by the commands that are left, after every
push. The two agree as long as neither the locking script nor the redeem script holds a push and,
behind it, commands that lock to a script hash of their own. Otherwise the machine takes bytes that
the check does not know of: a push in the locking script, which no signature is made for, or a push
in the redeem script, which is then redeemed in its turn.

* **`verifyInput_eq_inputRun`**: the check is the verdict on the run written down in `inputRun`.
* **`redemptions_inputRun`**: one redemption at most, and of the script that is signed.
* **`redemptions_inputRun_disagree`**: what happens without the two conditions.
-/

namespace Bitcoin

open Machine

/-- What the signatures of an input sign in place of the locking script, as far as that is known
    from the two scripts: nothing, or a redeem script, which may not be readable. -/
def TxIn.signing? (input : TxIn) (lock : Script) : Option (Option Script) :=
  match Script.scriptHash? lock with
  | none => some none
  | some _ => input.redeemScript?.map some

/-- For an output that is locked to a script hash the redeem script is signed. -/
theorem TxIn.signing?_scriptHash {input : TxIn} {h : Hash160} {cmds : Script}
    (hredeem : input.redeemScript? = some cmds) :
    input.signing? (Payee.scriptHash h).script = some (some cmds) := by
  rw [signing?, Script.scriptHash?_eq_some_iff.mpr rfl]
  exact congrArg (Option.map some) hredeem

/-- Bytes to push and the commands behind them are four commands. -/
theorem Script.not_holdsRedemption {s : Script} (h : s.length < 4) : ¬ s.HoldsRedemption := by
  rintro ⟨raw, hash, hsub⟩
  have hlong : 4 ≤ s.length := hsub.length_le
  omega

namespace Tx

/-- What the check of an input runs: the redeem script that its signatures sign, what the scripts
    see of the transaction, and the commands. -/
structure InputRun where
  signed : Option Script
  ctx : SpendContext
  script : Script

section

variable {m : Type → Type} [Monad m] [Digests] (resolve : Resolver m) (tx : Tx) (index : Nat)

/-- The run of an input whose signatures sign the given redeem script or, without one, the locking
    script. -/
def signedRun (input : TxIn) (lock : Script) (redeem : Option Script) :
    ExceptT Error m (Option InputRun) := do
  let z ← tx.sigHash resolve index redeem
  return some ⟨redeem, tx.spendContext input z, input.scriptSig ++ lock⟩

/-- What the check of an input runs. There is nothing to run for an input that spends a script hash
    without a readable redeem script. -/
def inputRun : ExceptT Error m (Option InputRun) := do
  match tx.inputs[index]? with
  | none => throw (.noSuchInput index)
  | some input =>
      let lock ← input.scriptPubKey resolve tx.network
      match input.signing? lock with
      | none => return none
      | some redeem => tx.signedRun resolve index input lock redeem

/-- The check of an input is the verdict on that run. -/
theorem verifyInput_eq_inputRun [LawfulMonad m] :
    tx.verifyInput resolve index = do
      match ← tx.inputRun resolve index with
      | none => return false
      | some run => return run.script.evaluate run.ctx := by
  rw [verifyInput, inputRun]
  cases tx.inputs[index]? with
  | none =>
      refine ExceptT.ext ?_
      simp only [ExceptT.run_bind, ExceptT.run_throw, pure_bind]
  | some input =>
      dsimp only
      rw [bind_assoc]
      congr 1
      funext lock
      rw [TxIn.signing?]
      cases Script.scriptHash? lock with
      | none => simp only [unlocks, signedRun, bind_assoc, pure_bind]
      | some h => cases input.redeemScript? with
        | none => simp only [Option.map_none, pure_bind]
        | some redeem => simp only [unlocks, signedRun, Option.map_some, bind_assoc, pure_bind]

end

section

variable [Digests] {σ : Type} {resolve : Resolver (StateM σ)} {tx : Tx} {i : Nat} {input : TxIn}
  {lock : Script} {s s' : σ} {run : InputRun}

/-- The run of an input, once the locking script has been found. -/
theorem inputRun_of_lock (hinput : tx.inputs[i]? = some input)
    (hlock : (input.scriptPubKey resolve tx.network).run.run s = (.ok lock, s')) :
    (tx.inputRun resolve i).run.run s
      = match input.signing? lock with
        | none => (.ok none, s')
        | some redeem => (tx.signedRun resolve i input lock redeem).run.run s' := by
  rw [inputRun, hinput]
  refine (Lookup.run_bind_of_ok hlock).trans ?_
  cases input.signing? lock with
  | none => rfl
  | some redeem => rfl

theorem signedRun_eq_ok_iff {redeem : Option Script} :
    ((tx.signedRun resolve i input lock redeem).run.run s).1 = .ok (some run) ↔
      ∃ z, ((tx.sigHash resolve i redeem).run.run s).1 = .ok z ∧
        run = ⟨redeem, tx.spendContext input z, input.scriptSig ++ lock⟩ := by
  rw [signedRun, Lookup.bind_eq_ok_iff]
  constructor
  · rintro ⟨z, t, hz, hrun⟩
    exact ⟨z, congrArg Prod.fst hz, (Option.some.inj (Except.ok.inj hrun)).symm⟩
  · rintro ⟨z, hz, rfl⟩
    exact ⟨z, _, Prod.ext hz rfl, rfl⟩

/-- What the check runs is made of what the signatures sign and of its digest. -/
theorem inputRun_eq_ok_iff (hinput : tx.inputs[i]? = some input)
    (hlock : (input.scriptPubKey resolve tx.network).run.run s = (.ok lock, s')) :
    ((tx.inputRun resolve i).run.run s).1 = .ok (some run) ↔ ∃ redeem z,
      input.signing? lock = some redeem ∧
        ((tx.sigHash resolve i redeem).run.run s').1 = .ok z ∧
        run = ⟨redeem, tx.spendContext input z, input.scriptSig ++ lock⟩ := by
  rw [inputRun_of_lock hinput hlock]
  constructor
  · intro hrun
    cases hsigning : input.signing? lock with
    | none =>
        rw [hsigning] at hrun
        exact nomatch hrun
    | some redeem =>
        rw [hsigning] at hrun
        obtain ⟨z, hz, hmade⟩ := signedRun_eq_ok_iff.mp hrun
        exact ⟨redeem, z, rfl, hz, hmade⟩
  · rintro ⟨redeem, z, hsigning, hz, hmade⟩
    rw [hsigning]
    exact signedRun_eq_ok_iff.mpr ⟨z, hz, hmade⟩

/-- A run takes bytes for a script only when the output is locked to a script hash, takes them once,
    and takes the last push of the input, whose script is the one that the digest is made for. For
    that a locking script of any other form has to be balanced and must not end one that locks to a
    script hash; and neither it nor the redeem script may hold bytes to push and, behind them,
    commands that lock to a script hash. -/
theorem redemptions_inputRun (hinput : tx.inputs[i]? = some input)
    (hlock : (input.scriptPubKey resolve tx.network).run.run s = (.ok lock, s'))
    (hrun : ((tx.inputRun resolve i).run.run s).1 = .ok (some run))
    (hplain : Script.scriptHash? lock = none → lock.Balanced ∧
      (∀ h : Hash160, ¬ lock <:+ (Payee.scriptHash h).script) ∧ ¬ lock.HoldsRedemption)
    (hsigned : ∀ cmds, run.signed = some cmds → ¬ cmds.HoldsRedemption) :
    redemptions run.ctx (start run.script) = [] ∨ ∃ h raw cmds,
      Script.scriptHash? lock = some h ∧
        redemptions run.ctx (start run.script) = [raw] ∧
        input.scriptSig.getLast? = some (.data raw) ∧ Script.ofRaw raw = .ok cmds ∧
        run.signed = some cmds ∧
        ((tx.sigHash resolve i (some cmds)).run.run s').1 = .ok run.ctx.z := by
  obtain ⟨redeem, z, hsigning, hz, rfl⟩ := (inputRun_eq_ok_iff hinput hlock).mp hrun
  cases hhash : Script.scriptHash? lock with
  | none =>
      left
      obtain ⟨hbalanced, hend, hholds⟩ := hplain hhash
      -- what is left of the locking script is all that can take bytes
      refine (redemptions_append hbalanced hend (start input.scriptSig)).trans ?_
      cases (start input.scriptSig).run .off (tx.spendContext input z) with
      | error e => rfl
      | ok t => exact redemptions_eq_nil hholds
  | some h =>
      obtain rfl := Script.scriptHash?_eq_some_iff.mp hhash
      rw [TxIn.signing?, hhash] at hsigning
      obtain ⟨cmds, hredeem, rfl⟩ := Option.map_eq_some_iff.mp hsigning
      obtain ⟨a, raw, hsig, hraw⟩ := TxIn.redeemScript?_eq_some_iff.mp hredeem
      rw [hsig, redemptions_append_redeem]
      cases (start a).run .off (tx.spendContext input z) with
      | error e => exact .inl rfl
      | ok t =>
          refine .inr ⟨h, raw, cmds, rfl, ?_, List.getLast?_concat, hraw, rfl, hz⟩
          exact congrArg (raw :: ·) (redemptionsAfter_redeem hraw (hsigned cmds rfl))

end

/-- A redeem script of one opcode redeems nothing in its turn. -/
theorem redemptions_inputRun_zero : ∃ run : InputRun,
    zeroHashSpending.inputs[0]? = some zeroHashInput ∧
      (zeroHashInput.scriptPubKey zeroHashResolver .main).run.run ()
        = (.ok (Payee.scriptHash (FixedBytes.zero 20)).script, ()) ∧
      ((@inputRun _ _ Digests.standard zeroHashResolver zeroHashSpending 0).run.run ()).1
        = .ok (some run) ∧
      (Script.scriptHash? (Payee.scriptHash (FixedBytes.zero 20)).script = none →
        (Payee.scriptHash (FixedBytes.zero 20)).script.Balanced ∧
          (∀ h : Hash160, ¬ (Payee.scriptHash (FixedBytes.zero 20)).script
            <:+ (Payee.scriptHash h).script) ∧
          ¬ (Payee.scriptHash (FixedBytes.zero 20)).script.HoldsRedemption) ∧
      (∀ cmds, run.signed = some cmds → ¬ cmds.HoldsRedemption) ∧
      (@redemptions Digests.standard run.ctx (start run.script) = [] ∨ ∃ h raw cmds,
        Script.scriptHash? (Payee.scriptHash (FixedBytes.zero 20)).script = some h ∧
          @redemptions Digests.standard run.ctx (start run.script) = [raw] ∧
          zeroHashInput.scriptSig.getLast? = some (.data raw) ∧ Script.ofRaw raw = .ok cmds ∧
          run.signed = some cmds ∧
          ((@sigHash _ _ Digests.standard zeroHashResolver zeroHashSpending 0
            (some cmds)).run.run ()).1 = .ok run.ctx.z) := by
  have hraw : Script.ofRaw [Opcode.pushOne] = .ok [.op Opcode.pushOne] := Script.ofRaw_op rfl
  have hredeem : zeroHashInput.redeemScript? = some [.op Opcode.pushOne] :=
    TxIn.redeemScript?_eq_some_iff.mpr ⟨[], [Opcode.pushOne], rfl, hraw⟩
  have hlock : Script.scriptHash? (Payee.scriptHash (FixedBytes.zero 20)).script
      = some (FixedBytes.zero 20) := Script.scriptHash?_eq_some_iff.mpr rfl
  obtain ⟨z, hz⟩ : ∃ z, ((@sigHash _ _ Digests.standard zeroHashResolver zeroHashSpending 0
      (some [.op Opcode.pushOne])).run.run ()).1 = .ok z := ⟨_, rfl⟩
  have hrun := (@inputRun_eq_ok_iff Digests.standard Unit zeroHashResolver zeroHashSpending 0
    zeroHashInput _ () () _ rfl rfl).mpr ⟨_, z, TxIn.signing?_scriptHash hredeem, hz, rfl⟩
  have hplain : Script.scriptHash? (Payee.scriptHash (FixedBytes.zero 20)).script = none →
      (Payee.scriptHash (FixedBytes.zero 20)).script.Balanced ∧
        (∀ h : Hash160, ¬ (Payee.scriptHash (FixedBytes.zero 20)).script
          <:+ (Payee.scriptHash h).script) ∧
        ¬ (Payee.scriptHash (FixedBytes.zero 20)).script.HoldsRedemption := by
    intro hnone
    exact nomatch hlock.symm.trans hnone
  have hsigned : ∀ cmds, some [Command.op Opcode.pushOne] = some cmds →
      ¬ Script.HoldsRedemption cmds := by
    rintro cmds ⟨⟩
    exact Script.not_holdsRedemption (by decide)
  exact ⟨_, rfl, rfl, hrun, hplain, hsigned,
    @redemptions_inputRun Digests.standard Unit zeroHashResolver zeroHashSpending 0 zeroHashInput
      _ () () _ rfl rfl hrun hplain hsigned⟩

/-! ## Without the two conditions -/

/-- Pushes a byte in front of the commands that lock to the script hash of zeros. -/
def pushingLock : Script := .data [Opcode.fail] :: (Payee.scriptHash (FixedBytes.zero 20)).script

/-- The bytes that this script is made of. -/
def pushingBytes : Bytes :=
  [1, Opcode.fail, Opcode.hash160, 20] ++ List.replicate 20 0 ++ [Opcode.equal]

/-- Finds a transaction with one output, which is locked by the given script. -/
def lockedResolver (lock : Script) : Resolver (StateM Unit) := fun _ net =>
  pure ⟨1, [], [⟨1000, lock⟩], 0, net⟩

/-- An input that spends that output with the given script. -/
def spendingInput (script : Script) : TxIn := ⟨⟨FixedBytes.zero 32, 0⟩, script, 0xffffffff⟩

/-- A transaction with that input. -/
def spendingWith (script : Script) : Tx := ⟨1, [spendingInput script], [], 0, .main⟩

theorem ofRaw_pushingBytes : Script.ofRaw pushingBytes = .ok pushingLock := by
  have hfrom : Script.readFrom 25 0 pushingBytes = .ok (pushingLock, []) := by
    refine Script.readFrom_of_read (by decide) rfl ?_
    refine Script.readFrom_of_read (by decide) rfl ?_
    refine Script.readFrom_of_read (by decide) rfl ?_
    exact Script.readFrom_of_read (by decide) rfl (Script.readFrom_self 25 [])
  exact congrArg (Except.map Prod.fst) hfrom

theorem scriptHash?_pushingLock : Script.scriptHash? pushingLock = none := rfl

/-- The byte is taken for a script, and nothing after it. -/
theorem redemptions_pushingLock [Digests] (ctx : SpendContext) (s alt : Stack) :
    redemptions ctx ⟨s, alt, pushingLock⟩ = [[Opcode.fail]] := by
  have hraw : Script.ofRaw [Opcode.fail] = .ok [.op Opcode.fail] := Script.ofRaw_op rfl
  have hplain : ¬ Script.HoldsRedemption [.op Opcode.fail] := Script.not_holdsRedemption (by decide)
  refine redemptions_redeem.trans ?_
  exact congrArg ([Opcode.fail] :: ·) (redemptionsAfter_redeem hraw hplain)

/-- A push in the locking script is redeemed although no redeem script is signed, and a push in the
    redeem script is redeemed after it. -/
theorem redemptions_inputRun_disagree :
    (∃ run : InputRun, Script.scriptHash? pushingLock = none ∧
      ((@inputRun _ _ Digests.standard (lockedResolver pushingLock) (spendingWith []) 0).run.run
        ()).1 = .ok (some run) ∧
      run.signed = none ∧
      @redemptions Digests.standard run.ctx (start run.script) = [[Opcode.fail]]) ∧
    ∃ run : InputRun,
      ((@inputRun _ _ Digests.standard
        (lockedResolver (Payee.scriptHash (Digests.standard.hash160 pushingBytes)).script)
        (spendingWith [.data pushingBytes]) 0).run.run ()).1 = .ok (some run) ∧
      run.signed = some pushingLock ∧
      @redemptions Digests.standard run.ctx (start run.script) = [pushingBytes, [Opcode.fail]] := by
  let _ : Digests := Digests.standard
  constructor
  · -- the locking script holds the push
    have hsigning : (spendingInput []).signing? pushingLock = some none := by
      rw [TxIn.signing?, scriptHash?_pushingLock]
    obtain ⟨z, hz⟩ : ∃ z, ((sigHash (lockedResolver pushingLock) (spendingWith []) 0
      none).run.run ()).1 = .ok z := ⟨_, rfl⟩
    have hrun := (inputRun_eq_ok_iff rfl rfl).mpr ⟨none, z, hsigning, hz, rfl⟩
    exact ⟨_, scriptHash?_pushingLock, hrun, rfl, redemptions_pushingLock _ [] []⟩
  · -- the redeem script holds it
    have hredeem : (spendingInput [.data pushingBytes]).redeemScript? = some pushingLock :=
      TxIn.redeemScript?_eq_some_iff.mpr ⟨[], pushingBytes, rfl, ofRaw_pushingBytes⟩
    have hsigning := TxIn.signing?_scriptHash (h := Digests.hash160 pushingBytes) hredeem
    obtain ⟨z, hz⟩ : ∃ z, ((sigHash
      (lockedResolver (Payee.scriptHash (Digests.hash160 pushingBytes)).script)
      (spendingWith [.data pushingBytes]) 0 (some pushingLock)).run.run ()).1 = .ok z := ⟨_, rfl⟩
    have hrun := (inputRun_eq_ok_iff rfl rfl).mpr ⟨some pushingLock, z, hsigning, hz, rfl⟩
    have hredeemed := redeem_eq_ok_iff (m := ⟨[], [],
      (Payee.scriptHash (Digests.hash160 pushingBytes)).script⟩).mpr
        ⟨rfl, pushingLock, ofRaw_pushingBytes, rfl⟩
    refine ⟨_, hrun, rfl, redemptions_redeem.trans ?_⟩
    rw [hredeemed]
    exact congrArg (pushingBytes :: ·) (redemptions_pushingLock _ [] [])

end Tx

end Bitcoin
