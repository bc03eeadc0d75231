import Bitcoin.Proofs.Script.LockTime
import Bitcoin.Proofs.Transaction.Redemption

/-!
# Spending a coin that is locked until a time

The machine compares a demand on lock times with what the scripts of an input see of the
transaction. Those are the lock time and the version of the transaction itself and the sequence of
the input that is checked. So a transaction that spends a coin with such a demand in front of its
locking script meets the demand with its own fields, whatever unlocks the coin.

* **`verifyInput_of_scriptHash?_eq_none`**: the check of an input that spends no script hash.
* **`verifyInput_locked_iff`**: when an input that spends a locked coin is valid.
* **`lockTimes_of_verifyInput`**: what the fields of the transaction are then.
-/

namespace Bitcoin.Tx

section

variable [Digests] {σ : Type} {resolve : Resolver (StateM σ)} {tx : Tx} {i : Nat} {input : TxIn}
  {lock : Script} {s s' : σ}

/-- The check of an input that spends no script hash, after the spent output has been found. -/
theorem verifyInput_of_scriptHash?_eq_none (hinput : tx.inputs[i]? = some input)
    (hlock : (input.scriptPubKey resolve tx.network).run.run s = (.ok lock, s'))
    (hnone : Script.scriptHash? lock = none) :
    (tx.verifyInput resolve i).run.run s
      = (tx.unlocks resolve i input lock none).run.run s' := by
  rw [verifyInput, hinput]
  refine (Lookup.run_bind_of_ok hlock).trans ?_
  rw [hnone]

/-- An input that spends a coin with a demand in front is valid exactly when the digest can be made,
    the transaction meets the demand, the unlocking script runs alone to its end, and the rest of
    the locking script succeeds from the stacks that are left. -/
theorem verifyInput_locked_iff {op : LockOp} {required : Bytes} {b : Script} (hb : b.Balanced)
    (hinput : tx.inputs[i]? = some input)
    (hlock : (input.scriptPubKey resolve tx.network).run.run s
      = (.ok (Script.locked op required b), s')) :
    ((tx.verifyInput resolve i).run.run s).1 = .ok true ↔ ∃ z,
      ((tx.sigHash resolve i none).run.run s').1 = .ok z ∧
        op.reached (tx.spendContext input z) (ScriptNumber.decode required) = true ∧
        ∃ stack alt, (Machine.start input.scriptSig).run .off (tx.spendContext input z)
            = .ok ⟨stack, alt, []⟩ ∧
          Machine.execute (tx.spendContext input z) ⟨stack, alt, b⟩ = .ok () := by
  rw [verifyInput_of_scriptHash?_eq_none hinput hlock Script.scriptHash?_locked, unlocks_eq_ok_iff]
  refine exists_congr fun z => and_congr Iff.rfl ?_
  exact Script.execute_append_locked_iff hb input.scriptSig

/-- When an input is valid that spends a coin with a demand on the lock time in front, the number is
    reached by the lock time of the transaction, both are heights or both are times, and the input
    is not final. When the demand is on the relative lock, the number is not negative, and the lock
    is switched off in it or the version and the sequence meet it. -/
theorem lockTimes_of_verifyInput {required : Bytes} {b : Script}
    (hinput : tx.inputs[i]? = some input)
    (hlock : (input.scriptPubKey resolve tx.network).run.run s = (.ok lock, s'))
    (hb : b.Balanced) (hvalid : ((tx.verifyInput resolve i).run.run s).1 = .ok true) :
    (lock = [.data required, .op Opcode.checkLockTime, .op Opcode.drop] ++ b →
      0 ≤ ScriptNumber.decode required ∧ ScriptNumber.decode required ≤ tx.lockTime.toNat ∧
        (ScriptNumber.decode required < 500000000 ↔ tx.lockTime.toNat < 500000000) ∧
        input.sequence ≠ 0xffffffff) ∧
    (lock = [.data required, .op Opcode.checkSequence, .op Opcode.drop] ++ b →
      0 ≤ ScriptNumber.decode required ∧
        ((ScriptNumber.decode required).testBit 31 = true ∨
          2 ≤ tx.version.toInt32.toInt ∧ input.sequence.toNat.testBit 31 = false ∧
            (ScriptNumber.decode required).testBit 22 = input.sequence.toNat.testBit 22 ∧
            ScriptNumber.decode required % 0x10000
              ≤ (input.sequence.toNat : Int) % 0x10000)) := by
  constructor
  · intro hlocked
    have hfound : lock = Script.locked .lockTime required b := hlocked
    obtain ⟨z, -, hreached, -⟩ := (verifyInput_locked_iff hb hinput (hfound ▸ hlock)).mp hvalid
    exact SpendContext.reachedLockTime_iff.mp hreached
  · intro hlocked
    have hfound : lock = Script.locked .relative required b := hlocked
    obtain ⟨z, -, hreached, -⟩ := (verifyInput_locked_iff hb hinput (hfound ▸ hlock)).mp hvalid
    exact SpendContext.reachedRelativeLock_iff.mp hreached

end

/-- An input that has waited for five blocks. -/
def waitingInput : TxIn := ⟨⟨FixedBytes.zero 32, 0⟩, [], 5⟩

/-- A transaction with that input, which is locked until the block at height 100. -/
def waitingTx : Tx := ⟨2, [waitingInput], [], 100, .main⟩

/-- That transaction spends a coin with a demand that it meets and nothing else to ask for. -/
theorem verifyInput_waitingTx (op : LockOp) (required : Bytes)
    (h : op.reached (waitingTx.spendContext waitingInput 0) (ScriptNumber.decode required) = true)
    (hsig : ∃ z, ((@sigHash _ _ Digests.standard
      (lockedResolver (Script.locked op required [.op Opcode.pushOne])) waitingTx 0
      none).run.run ()).1 = .ok z) :
    ((@verifyInput _ _ Digests.standard
      (lockedResolver (Script.locked op required [.op Opcode.pushOne])) waitingTx 0).run.run ()).1
        = .ok true := by
  let _ : Digests := Digests.standard
  obtain ⟨z, hz⟩ := hsig
  have hone : Script.Balanced [.op Opcode.pushOne] := by decide
  have hreached : op.reached (waitingTx.spendContext waitingInput z) (ScriptNumber.decode required)
      = true := by
    -- no demand is on the digest
    cases op <;> exact h
  refine (verifyInput_locked_iff hone rfl rfl).mpr ⟨z, hz, hreached, [], [], ?_, ?_⟩
  · exact Machine.run_nil _ _ _ _
  · refine Machine.execute_eq_ok_iff.mpr ⟨ScriptNumber.encode 1, [], [], ?_, by decide +kernel⟩
    exact Machine.run_cons_eq_ok_iff.mpr ⟨_, rfl, Machine.run_nil _ _ _ _⟩

/-- Demands the height 100. -/
def heightLock : Script := Script.locked .lockTime [100] [.op Opcode.pushOne]

/-- Demands a wait of five blocks. -/
def waitLock : Script := Script.locked .relative [5] [.op Opcode.pushOne]

theorem lockTimes_of_verifyInput_waiting :
    waitingTx.inputs[0]? = some waitingInput ∧ Script.Balanced [.op Opcode.pushOne] ∧
      ((waitingInput.scriptPubKey (lockedResolver heightLock) .main).run.run ()
          = (.ok heightLock, ()) ∧
        ((@verifyInput _ _ Digests.standard (lockedResolver heightLock) waitingTx 0).run.run ()).1
          = .ok true ∧
        0 ≤ ScriptNumber.decode [100] ∧ ScriptNumber.decode [100] ≤ waitingTx.lockTime.toNat ∧
        (ScriptNumber.decode [100] < 500000000 ↔ waitingTx.lockTime.toNat < 500000000) ∧
        waitingInput.sequence ≠ 0xffffffff) ∧
      (waitingInput.scriptPubKey (lockedResolver waitLock) .main).run.run () = (.ok waitLock, ()) ∧
        ((@verifyInput _ _ Digests.standard (lockedResolver waitLock) waitingTx 0).run.run ()).1
          = .ok true ∧
        0 ≤ ScriptNumber.decode [5] ∧
          ((ScriptNumber.decode [5]).testBit 31 = true ∨
            2 ≤ waitingTx.version.toInt32.toInt ∧
              waitingInput.sequence.toNat.testBit 31 = false ∧
              (ScriptNumber.decode [5]).testBit 22 = waitingInput.sequence.toNat.testBit 22 ∧
              ScriptNumber.decode [5] % 0x10000
                ≤ (waitingInput.sequence.toNat : Int) % 0x10000) := by
  have hone : Script.Balanced [.op Opcode.pushOne] := by decide
  have hheight := verifyInput_waitingTx .lockTime [100] (by decide) ⟨_, rfl⟩
  have hwait := verifyInput_waitingTx .relative [5] (by decide +kernel) ⟨_, rfl⟩
  exact ⟨rfl, hone,
    ⟨rfl, hheight, (@lockTimes_of_verifyInput Digests.standard Unit _ waitingTx 0 waitingInput
      heightLock () () [100] [.op Opcode.pushOne] rfl rfl hone hheight).1 rfl⟩,
    rfl, hwait, (@lockTimes_of_verifyInput Digests.standard Unit _ waitingTx 0 waitingInput
      waitLock () () [5] [.op Opcode.pushOne] rfl rfl hone hwait).2 rfl⟩

end Bitcoin.Tx
