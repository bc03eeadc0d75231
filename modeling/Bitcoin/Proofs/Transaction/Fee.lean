import Bitcoin.Proofs.Transaction.Answers
import Bitcoin.Proofs.Transaction.SigningOrder

/-!
# Fees are exact and no value is created

The fee is computed before any input is checked: the spent outputs are looked up one after the
other, so the first lookup that fails decides what the fee and the check of the transaction fail
with. When all are found, the fee is the exact difference of two sums of amounts. An amount is less
than `2 ^ 64`, so sums of fewer than `2 ^ 62` of them, in whatever order they are added up, stay far
inside the signed numbers of 128 bits. A negative fee settles the check before a script runs, and
any other fee leaves it to the inputs, each of which is checked in the state that the lookups before
it have left.

* **`TxOut.isInt128_totalAmount`**: sums of amounts do not overflow.
* **`Tx.run_fee`**, **`Tx.run_fee_error`**: the fee of a transaction, and what it fails with.
* **`Tx.verify_conserves_value`**: the three outcomes of the check of a transaction.
-/

namespace Bitcoin

/-- What a signed number of 128 bits can hold. -/
def IsInt128 (n : Int) : Prop := -2 ^ 127 ≤ n ∧ n < 2 ^ 127

namespace TxOut

/-- The sum of the amounts of outputs. -/
def worth (outputs : List TxOut) : Int :=
  (outputs.map fun output => (output.amount.toNat : Int)).sum

/-- Adding up amounts gives the exact sum, in as many bits as it takes. -/
theorem totalAmount_eq_worth (outputs : List TxOut) :
    totalAmount (outputs.map TxOut.amount) = worth outputs := by
  rw [totalAmount, worth, List.foldl_map, List.sum_eq_foldl, List.foldl_map]

theorem worth_nonneg (outputs : List TxOut) : 0 ≤ worth outputs := by
  refine List.sum_nonneg fun n hn => ?_
  obtain ⟨output, -, rfl⟩ := List.mem_map.mp hn
  exact Int.natCast_nonneg _

theorem worth_le (outputs : List TxOut) : worth outputs ≤ outputs.length * 2 ^ 64 := by
  induction outputs with
  | nil => decide
  | cons output outputs ih =>
      have hamount : output.amount.toNat < 2 ^ 64 := output.amount.toNat_lt
      have hcons : worth (output :: outputs) = output.amount.toNat + worth outputs := List.sum_cons
      rw [hcons, List.length_cons]
      omega

/-- Fewer than `2 ^ 62` outputs are worth less than `2 ^ 126`. -/
theorem worth_lt {outputs : List TxOut} (h : outputs.length < 2 ^ 62) :
    worth outputs < 2 ^ 126 := by
  have hle := worth_le outputs
  omega

/-- Adding up amounts does not overflow: not the whole sum, and not a sum on the way to it. -/
theorem isInt128_totalAmount {outputs : List TxOut} (h : outputs.length < 2 ^ 62) (k : Nat) :
    IsInt128 (totalAmount ((outputs.take k).map TxOut.amount)) := by
  have hlength : (outputs.take k).length < 2 ^ 62 := (List.length_take_le' k outputs).trans_lt h
  have hlt := worth_lt hlength
  have hnonneg := worth_nonneg (outputs.take k)
  rw [totalAmount_eq_worth]
  constructor <;> omega

/-- Nor does the difference of two such sums. -/
theorem isInt128_sub {spent created : List TxOut} (hspent : spent.length < 2 ^ 62)
    (hcreated : created.length < 2 ^ 62) : IsInt128 (worth spent - worth created) := by
  have hspent' := worth_lt hspent
  have hcreated' := worth_lt hcreated
  have hnonneg := worth_nonneg spent
  have hnonneg' := worth_nonneg created
  constructor <;> omega

end TxOut

namespace Tx

open TxOut (worth)

variable {m : Type → Type} [Monad m] {σ : Type}

/-- What is left of the spent outputs for the fee. -/
def balance (tx : Tx) (spent : List TxOut) : Int := worth spent - worth tx.outputs

section

variable [LawfulMonad m] (R : Runner m σ) {resolve : Resolver m} {tx : Tx} {spent : List TxOut}
  {s t : σ}

/-- When the spent outputs are found, the fee is the balance. -/
theorem run_fee
    (h : R.run (spentOutputs resolve tx.network tx.inputs).run s = (.ok spent, t)) :
    R.run (tx.fee resolve).run s = (.ok (tx.balance spent), t) := by
  rw [fee_eq, R.run_bind_of_ok h, balance, ← TxOut.totalAmount_eq_worth,
    ← TxOut.totalAmount_eq_worth]
  exact R.run_pure _ _

/-- When a lookup of them fails, so does the fee. -/
theorem run_fee_error {e : Error}
    (h : R.run (spentOutputs resolve tx.network tx.inputs).run s = (.error e, t)) :
    R.run (tx.fee resolve).run s = (.error e, t) := by
  rw [fee_eq]
  exact R.run_bind_of_error h

variable [Digests]

/-- A negative balance is an answer, before any input is checked. -/
theorem run_verify_of_neg
    (h : R.run (spentOutputs resolve tx.network tx.inputs).run s = (.ok spent, t))
    (hneg : tx.balance spent < 0) : R.run (tx.verify resolve).run s = (.ok false, t) := by
  rw [verify, R.run_bind_of_ok (run_fee R h), if_pos hneg]
  exact R.run_pure _ _

/-- Otherwise the inputs are checked. -/
theorem run_verify_of_nonneg
    (h : R.run (spentOutputs resolve tx.network tx.inputs).run s = (.ok spent, t))
    (hnonneg : 0 ≤ tx.balance spent) : R.run (tx.verify resolve).run s
      = R.run ((List.range tx.inputs.length).allM (tx.verifyInput resolve)).run t := by
  rw [verify, R.run_bind_of_ok (run_fee R h), if_neg (Int.not_lt.mpr hnonneg)]

/-- Where an output that is spent is not found, there is no verdict. -/
theorem run_verify_error {e : Error}
    (h : R.run (spentOutputs resolve tx.network tx.inputs).run s = (.error e, t)) :
    R.run (tx.verify resolve).run s = (.error e, t) :=
  R.run_bind_of_error (run_fee_error R h)

end

/-! ## The checks of the inputs, one after the other -/

section

variable [Digests] (resolve : Resolver (StateM σ)) (tx : Tx)

/-- The state that is left when the given number of inputs have been checked. -/
def stateAfter (s : σ) : Nat → σ
  | 0 => s
  | i + 1 => ((tx.verifyInput resolve i).run.run (stateAfter s i)).2

/-- All inputs are valid, when each is checked in the state that the check before it has left. -/
def AllValid (s t : σ) : Prop :=
  stateAfter resolve tx s tx.inputs.length = t ∧ ∀ i < tx.inputs.length,
    ((tx.verifyInput resolve i).run.run (stateAfter resolve tx s i)).1 = .ok true

end

section

variable [Digests] {resolve : Resolver (StateM σ)} {tx : Tx} {spent : List TxOut} {s t : σ}

/-- All inputs are checked one after the other, each with the state that those before it leave. -/
theorem run_allM_verifyInput_iff {u : σ} :
    Runner.state.run ((List.range tx.inputs.length).allM (tx.verifyInput resolve)).run t
      = (.ok true, u) ↔ AllValid resolve tx t u := by
  rw [Runner.run_allM_eq_ok_true_iff]
  simp only [List.length_range, List.getElem_range]
  constructor
  · rintro ⟨states, rfl, rfl, hall⟩
    have hafter : ∀ i ≤ tx.inputs.length, stateAfter resolve tx (states 0) i = states i := by
      intro i hi
      induction i with
      | zero => rfl
      | succ i ih =>
          rw [stateAfter, ih (Nat.le_of_succ_le hi)]
          exact congrArg Prod.snd (hall i hi)
    refine ⟨hafter _ le_rfl, fun i hi => ?_⟩
    rw [hafter i (Nat.le_of_lt hi)]
    exact congrArg Prod.fst (hall i hi)
  · rintro ⟨rfl, hall⟩
    exact ⟨stateAfter resolve tx t, rfl, rfl, fun i hi => Prod.ext (hall i hi) rfl⟩

/-- The check of a transaction says yes when no value is created and all inputs are valid. -/
theorem run_verify_eq_true_iff {u : σ}
    (h : (spentOutputs resolve tx.network tx.inputs).run.run s = (.ok spent, t)) :
    (tx.verify resolve).run.run s = (.ok true, u) ↔
      0 ≤ tx.balance spent ∧ AllValid resolve tx t u := by
  by_cases hneg : tx.balance spent < 0
  · have hrun : (tx.verify resolve).run.run s = (.ok false, t) :=
      run_verify_of_neg Runner.state h hneg
    rw [hrun]
    constructor
    · intro hfalse
      exact nomatch congrArg Prod.fst hfalse
    · rintro ⟨hnonneg, -⟩
      exact absurd hneg (Int.not_lt.mpr hnonneg)
  · have hnonneg := Int.not_lt.mp hneg
    have hrun : (tx.verify resolve).run.run s
        = Runner.state.run ((List.range tx.inputs.length).allM (tx.verifyInput resolve)).run t :=
      run_verify_of_nonneg Runner.state h hnonneg
    rw [hrun, run_allM_verifyInput_iff, and_iff_right hnonneg]

/-- When answers depend on nothing but what is asked for, so does the check of an input. -/
theorem verifyInput_deterministic (hdet : resolve.Deterministic) (tx : Tx) (i : Nat) (s t : σ) :
    ((tx.verifyInput resolve i).run.run s).1 = ((tx.verifyInput resolve i).run.run t).1 := by
  cases hinput : tx.inputs[i]? with
  | none => rw [verifyInput, hinput]; rfl
  | some input =>
      obtain ⟨lock, hlock⟩ := exists_settles_scriptPubKey hdet s input tx.network
      have hcheck := settles_verifyInput hinput hlock
      exact (hcheck.fst_run s).trans (hcheck.fst_run t).symm

/-- Then it does not matter in which state an input is checked. -/
theorem exists_allValid_iff (hdet : resolve.Deterministic) (s t : σ) :
    (∃ u, AllValid resolve tx t u) ↔
      ∀ i < tx.inputs.length, ((tx.verifyInput resolve i).run.run s).1 = .ok true := by
  constructor
  · rintro ⟨u, -, hall⟩ i hi
    rw [verifyInput_deterministic hdet tx i s (stateAfter resolve tx t i), hall i hi]
  · intro hall
    refine ⟨_, rfl, fun i hi => ?_⟩
    rw [verifyInput_deterministic hdet tx i (stateAfter resolve tx t i) s, hall i hi]

/-- The same with a lookup that answers alike every time, where no state has to be followed. -/
theorem verify_eq_true_iff (hdet : resolve.Deterministic) (s : σ) :
    ((tx.verify resolve).run.run s).1 = .ok true ↔
      ∃ spent, ((spentOutputs resolve tx.network tx.inputs).run.run s).1 = .ok spent ∧
        0 ≤ tx.balance spent ∧
        ∀ i < tx.inputs.length, ((tx.verifyInput resolve i).run.run s).1 = .ok true := by
  cases hlookup : (spentOutputs resolve tx.network tx.inputs).run.run s with
  | mk result t =>
      cases result with
      | error e =>
          have hrun : (tx.verify resolve).run.run s = (.error e, t) :=
            run_verify_error Runner.state hlookup
          rw [hrun]
          constructor
          · intro h
            exact nomatch h
          · rintro ⟨spent, h, -⟩
            exact nomatch h
      | ok spent =>
          constructor
          · intro h
            obtain ⟨hnonneg, hvalid⟩ := (run_verify_eq_true_iff hlookup).mp (Prod.ext h rfl)
            exact ⟨spent, rfl, hnonneg, (exists_allValid_iff hdet s t).mp ⟨_, hvalid⟩⟩
          · rintro ⟨_, ⟨⟩, hnonneg, hall⟩
            obtain ⟨u, hvalid⟩ := (exists_allValid_iff hdet s t).mpr hall
            exact congrArg Prod.fst ((run_verify_eq_true_iff hlookup).mpr ⟨hnonneg, hvalid⟩)

/-- When all spent outputs are found, the fee is their exact worth less that of the outputs, without
    an overflow on the way; if it is negative the answer is no, and the answer is yes exactly when
    it is not and every input is valid. When one is not found, fee and check fail as the first such
    lookup does. If the answers of the lookups depend on nothing but what is asked for, the answer
    is yes exactly when all are found, no value is created and every input by itself is valid. -/
theorem verify_conserves_value (resolve : Resolver (StateM σ)) (s : σ)
    (hinputs : tx.inputs.length < 2 ^ 62) (houtputs : tx.outputs.length < 2 ^ 62) :
    (∀ spent t, (spentOutputs resolve tx.network tx.inputs).run.run s = (.ok spent, t) →
      (tx.fee resolve).run.run s = (.ok (worth spent - worth tx.outputs), t) ∧
      (∀ k, IsInt128 (totalAmount ((spent.take k).map TxOut.amount))) ∧
      (∀ k, IsInt128 (totalAmount ((tx.outputs.take k).map TxOut.amount))) ∧
      IsInt128 (worth spent - worth tx.outputs) ∧
      (worth spent - worth tx.outputs < 0 → (tx.verify resolve).run.run s = (.ok false, t)) ∧
      ∀ u, (tx.verify resolve).run.run s = (.ok true, u) ↔
        0 ≤ worth spent - worth tx.outputs ∧ AllValid resolve tx t u) ∧
    (∀ e t, (spentOutputs resolve tx.network tx.inputs).run.run s = (.error e, t) →
      (tx.fee resolve).run.run s = (.error e, t) ∧
      (tx.verify resolve).run.run s = (.error e, t) ∧
      ∃ front input back before u, tx.inputs = front ++ input :: back ∧
        (spentOutputs resolve tx.network front).run.run s = (.ok before, u) ∧
        (∀ k, IsInt128 (totalAmount ((before.take k).map TxOut.amount))) ∧
        (input.spends.output resolve tx.network).run.run u = (.error e, t)) ∧
    (resolve.Deterministic → (((tx.verify resolve).run.run s).1 = .ok true ↔
      ∃ spent, ((spentOutputs resolve tx.network tx.inputs).run.run s).1 = .ok spent ∧
        0 ≤ worth spent - worth tx.outputs ∧
        ∀ i < tx.inputs.length, ((tx.verifyInput resolve i).run.run s).1 = .ok true)) := by
  refine ⟨fun spent t h => ?_, fun e t h => ?_, fun hdet => verify_eq_true_iff hdet s⟩
  · have hspent : spent.length < 2 ^ 62 := by
      rw [Runner.state.length_of_run_mapM h]
      exact hinputs
    exact ⟨run_fee Runner.state h, TxOut.isInt128_totalAmount hspent,
      TxOut.isInt128_totalAmount houtputs, TxOut.isInt128_sub hspent houtputs,
      run_verify_of_neg Runner.state h, fun u => run_verify_eq_true_iff h⟩
  · obtain ⟨front, input, back, before, u, hsplit, hbefore, hfails⟩ :=
      Runner.state.exists_of_run_mapM_eq_error h
    refine ⟨run_fee_error Runner.state h, run_verify_error Runner.state h, front, input, back,
      before, u, hsplit, hbefore, ?_, hfails⟩
    have hshort : before.length < 2 ^ 62 := by
      rw [Runner.state.length_of_run_mapM hbefore]
      rw [hsplit, List.length_append] at hinputs
      omega
    exact TxOut.isInt128_totalAmount hshort

end

/-- Spends an output of amount 1000 and creates one of the given amount. -/
def payingTx (amount : UInt64) : Tx := ⟨1, [spendingInput []], [⟨amount, []⟩], 0, .main⟩

/-- Finds an output that anyone can spend. -/
def openResolver : Resolver (StateM Unit) := lockedResolver [.data [1]]

/-- Finds nothing. -/
def emptyResolver : Resolver (StateM Unit) := fun id _ => throw (.unknownTransaction id)

theorem evaluate_push_one [Digests] (ctx : SpendContext) :
    Script.evaluate ctx [.data [1]] = true := by
  have hrun : (Machine.start [.data [1]]).run .on ctx = .ok ⟨[[1]], [], []⟩ :=
    (Machine.run_data rfl).trans (Machine.run_nil .on ctx [[1]] [])
  rw [Script.evaluate, Script.execute, hrun]
  rfl

theorem verifyInput_payingTx [Digests] (amount : UInt64) :
    (((payingTx amount).verifyInput openResolver 0).run.run ()).1 = .ok true := by
  have hlock : Runner.state.Settles (fun _ => True)
      ((spendingInput []).scriptPubKey openResolver .main).run (.ok [.data [1]]) :=
    fun _ _ => ⟨(), trivial, rfl⟩
  have hinput : (payingTx amount).inputs[0]? = some (spendingInput []) := rfl
  obtain ⟨z, hz⟩ : ∃ z, (payingTx amount).digest 0 [.data [1]] = .ok z := by
    refine (exists_digest_iff Nat.zero_lt_one).mpr ⟨by decide, fun output houtput => ?_⟩
    obtain rfl := List.mem_singleton.mp houtput
    exact fun _ h => nomatch h
  have hverdict : (payingTx amount).verdict 0 (spendingInput []) [.data [1]] = .ok true := by
    have hsigning : (spendingInput []).signing? [.data [1]] = some none := rfl
    rw [verdict, hsigning]
    dsimp only [Option.getD_none]
    rw [hz]
    exact congrArg Except.ok (evaluate_push_one _)
  exact ((settles_verifyInput hinput hlock).fst_run ()).trans hverdict

/-- The three outcomes: value would be created, a fee of 400 is left, and nothing is found. -/
theorem verify_conserves_value_paying :
    (payingTx 2000).inputs.length < 2 ^ 62 ∧ (payingTx 2000).outputs.length < 2 ^ 62 ∧
      ((payingTx 2000).fee openResolver).run.run () = (.ok (-1000), ()) ∧
      (@verify _ _ Digests.standard openResolver (payingTx 2000)).run.run () = (.ok false, ()) ∧
      openResolver.Deterministic ∧
      ((@verify _ _ Digests.standard openResolver (payingTx 600)).run.run ()).1 = .ok true ∧
      (@verify _ _ Digests.standard emptyResolver (payingTx 600)).run.run ()
        = (.error (.unknownTransaction (FixedBytes.zero 32)), ()) := by
  let _ : Digests := Digests.standard
  have hone : 1 < 2 ^ 62 := by decide
  have hinputs : ∀ amount, (payingTx amount).inputs.length < 2 ^ 62 := fun _ => hone
  have houtputs : ∀ amount, (payingTx amount).outputs.length < 2 ^ 62 := fun _ => hone
  have hdet : openResolver.Deterministic := deterministic_lockedResolver _
  have hfound : ∀ amount, (spentOutputs openResolver .main (payingTx amount).inputs).run.run ()
      = (.ok [⟨1000, [.data [1]]⟩], ()) := fun _ => rfl
  have hmissing : (spentOutputs emptyResolver .main (payingTx 600).inputs).run.run ()
      = (.error (.unknownTransaction (FixedBytes.zero 32)), ()) := rfl
  obtain ⟨hfee, -, -, -, hfalse, -⟩ := (verify_conserves_value openResolver ()
    (hinputs 2000) (houtputs 2000)).1 _ _ (hfound 2000)
  obtain ⟨-, -, htrue⟩ := verify_conserves_value openResolver () (hinputs 600) (houtputs 600)
  obtain ⟨-, hfails, -⟩ := verify_conserves_value emptyResolver () (hinputs 600) (houtputs 600)
  refine ⟨hinputs _, houtputs _, hfee, hfalse (by decide), hdet, ?_, (hfails _ _ hmissing).2.1⟩
  refine (htrue hdet).mpr ⟨_, congrArg Prod.fst (hfound 600), by decide, fun i hi => ?_⟩
  obtain rfl := Nat.lt_one_iff.mp hi
  exact verifyInput_payingTx 600

end Tx

end Bitcoin
