import Bitcoin.Proofs.Transaction.Store
import Bitcoin.Proofs.Transaction.Verdict

/-!
# When a check has an answer

The check of an input through a store looks up the spent transaction first. From then on the store
keeps that transaction, and keeps it under its id, so it can be written and its locking scripts with
it. What can still fail is writing what the signatures of the input sign: the outputs of the
transaction, and the redeem script that the last push of the input is made of. A script is read with
pushes of any length and written with pushes of 520 bytes at most, so a push that is too long is an
error there and no answer.

* **`lookups_spent`**: outputs that have been looked up are found again.
* **`Tx.fee_eq`**: the fee is computed from the outputs that are looked up.
* **`answers_of_resolved`**: when the check of an input, and that of a transaction, has an answer.
* **`answers_of_resolved_fails`**: an error for an input whose script was read.
-/

namespace Bitcoin

/-! ## Writing fails for a push that is too long and for nothing else -/

/-- A push is longer than it may be. -/
def Error.Overlong (e : Error) : Prop := ∃ n, maxPushSize < n ∧ e = .pushTooLong n

/-- A command fails to be written only for a push that is too long. -/
theorem Command.failsOnly_bytes (c : Command) : Except.FailsOnly Error.Overlong c.bytes := by
  intro e h
  obtain ⟨content, -, hlong, rfl⟩ := bytes_eq_error_iff.mp h
  exact ⟨content.length, hlong, rfl⟩

/-- A script fails to be written only for such a push. -/
theorem Script.failsOnly_bytes (s : Script) : Except.FailsOnly Error.Overlong s.bytes := by
  have hbody : Except.FailsOnly Error.Overlong s.body :=
    (Except.FailsOnly.mapM Command.failsOnly_bytes s).bind fun _ => .ok _
  exact hbody.bind fun _ => .ok _

namespace Tx

/-- The signed bytes fail only where a script is not written. -/
theorem failsOnly_preimage (tx : Tx) (i : Nat) (code : Script) :
    Except.FailsOnly Error.Overlong (tx.preimage i code) := by
  have hinput : ∀ p : TxIn × Nat, Except.FailsOnly Error.Overlong
      (p.1.bytesWith (if p.2 = i then code else [])) := fun p =>
    (Script.failsOnly_bytes _).bind fun _ => .ok _
  have houtput : ∀ output : TxOut, Except.FailsOnly Error.Overlong output.bytes := fun output =>
    (Script.failsOnly_bytes _).bind fun _ => .ok _
  have htail : Except.FailsOnly Error.Overlong tx.tailBytes :=
    (Except.FailsOnly.mapM houtput _).bind fun _ => .ok _
  exact (Except.FailsOnly.mapM hinput _).bind fun _ => htail.bind fun _ => .ok _

/-- The verdict fails only where there is no digest. -/
theorem failsOnly_verdict [Digests] (tx : Tx) (i : Nat) (input : TxIn) (lock : Script) :
    Except.FailsOnly Error.Overlong (tx.verdict i input lock) := by
  rw [verdict]
  cases input.signing? lock with
  | none => exact .ok _
  | some redeem =>
      have hdigest : Except.FailsOnly Error.Overlong (tx.digest i (redeem.getD lock)) :=
        (failsOnly_preimage tx i _).bind fun _ => .ok _
      exact hdigest.bind fun _ => .ok _

end Tx

/-! ## Outputs that have been looked up -/

/-- An outpoint picks the output with its number. -/
theorem Outpoint.pick_eq_ok_iff {p : Outpoint} {tx : Tx} {output : TxOut} :
    p.pick tx = .ok output ↔ tx.outputs[p.index.toNat]? = some output := by
  rw [pick]
  cases tx.outputs[p.index.toNat]? with
  | none =>
      constructor
      · intro h
        cases h
      · intro h
        cases h
  | some found =>
      constructor
      · intro h
        rw [Except.ok.inj h]
      · intro h
        rw [Option.some.inj h]

/-- The store keeps the transaction of an outpoint, and this is its output. -/
def TxStore.Keeps (store : TxStore) (p : Outpoint) (output : TxOut) : Prop :=
  ∃ tx, store.find? p.txid = some tx ∧ p.pick tx = .ok output

/-- A store that keeps more still keeps an output. -/
theorem TxStore.Keeps.extends {store later : TxStore} {p : Outpoint} {output : TxOut}
    (h : store.Keeps p output) (hlater : later.Extends store) : later.Keeps p output := by
  obtain ⟨tx, hkept, hpick⟩ := h
  exact ⟨tx, hlater _ _ hkept, hpick⟩

section

variable [Digests] {m : Type → Type} [Monad m] {σ : Type} {R : Runner m σ}
  {behind : Option (Resolver m)} {store later : TxStore} {net : Network} {p : Outpoint}
  {output : TxOut} {s t : σ}

/-- The locking script of an output that is kept under its id can be written. -/
theorem TxStore.Keeps.writable (h : store.Keeps p output) (hsound : store.Sound) :
    output.scriptPubKey.Writable := by
  obtain ⟨tx, hkept, hpick⟩ := h
  obtain ⟨bs, hbytes, -⟩ := Except.bind_eq_ok_iff.mp (hsound _ _ hkept)
  have hmem := List.mem_of_getElem? (Outpoint.pick_eq_ok_iff.mp hpick)
  refine Tx.exists_bytes_iff.mp ⟨bs, hbytes⟩ _ ?_
  exact List.mem_append_right _ (List.mem_map_of_mem hmem)

/-- What is kept is found, and the store is left as it is. -/
theorem TxStore.Keeps.settles (h : store.Keeps p output) (s : σ) :
    R.under.Settles (· = (store, s)) (p.output (TxStore.fetch behind) net).run (.ok output) := by
  obtain ⟨tx, hkept, hpick⟩ := h
  have hfound : R.under.Settles (· = (store, s)) (TxStore.fetch behind p.txid net).run
      (.ok tx) := by
    rintro _ rfl
    exact ⟨_, rfl, TxStore.fetch_of_find? hkept⟩
  have houtput := Tx.settles_output hfound
  rwa [Except.bind, hpick] at houtput

/-- An output that is looked up is kept. -/
theorem keeps_of_output (hsound : store.Sound)
    (h : R.under.run (p.output (TxStore.fetch behind) net).run (store, s)
      = (.ok output, (later, t))) :
    later.Sound ∧ later.Extends store ∧ later.Keeps p output := by
  obtain ⟨tx, ⟨middle, u⟩, hfetch, hrest⟩ := (R.under.run_bind_eq_ok_iff).mp h
  obtain ⟨hkept, hextends⟩ := TxStore.fetch_eq_ok hfetch
  have hsound' := hsound.fetch hfetch
  cases hpick : tx.outputs[p.index.toNat]? with
  | none =>
      rw [hpick] at hrest
      exact nomatch congrArg Prod.fst ((R.under.run_pure _ _).symm.trans hrest)
  | some found =>
      rw [hpick] at hrest
      obtain ⟨hfound, hstate⟩ := Prod.mk.inj ((R.under.run_pure _ _).symm.trans hrest)
      obtain ⟨rfl, -⟩ := Prod.mk.inj hstate
      obtain rfl := Except.ok.inj hfound
      exact ⟨hsound', hextends, tx, hkept, Outpoint.pick_eq_ok_iff.mpr hpick⟩

/-- The check of an input looks the output up and then gives the verdict. -/
theorem Tx.run_verifyInput {tx : Tx} {i : Nat} {input : TxIn} (hsound : store.Sound)
    (hinput : tx.inputs[i]? = some input)
    (h : R.under.run (input.spends.output (TxStore.fetch behind) tx.network).run (store, s)
      = (.ok output, (later, t))) :
    R.under.run (tx.verifyInput (TxStore.fetch behind) i).run (store, s)
      = (tx.verdict i input output.scriptPubKey, (later, t)) := by
  obtain ⟨-, -, hkeeps⟩ := keeps_of_output hsound h
  have hlock : R.under.run (input.scriptPubKey (TxStore.fetch behind) tx.network).run (store, s)
      = (.ok output.scriptPubKey, (later, t)) :=
    (R.under.run_bind_of_ok h).trans (R.under.run_pure _ _)
  have hkept : R.under.Settles (· = (later, t))
      (input.spends.output (TxStore.fetch behind) tx.network).run (.ok output) := hkeeps.settles t
  have hagain := Tx.settles_scriptPubKey hkept
  -- a check that starts with the second lookup goes on in the same way
  obtain ⟨_, rfl, hsecond⟩ := Tx.settles_verifyInput hinput hagain _ rfl
  obtain ⟨_, rfl, hlock'⟩ := hagain _ rfl
  rw [verifyInput, hinput] at hsecond ⊢
  rw [R.under.run_bind_of_ok hlock'] at hsecond
  exact (R.under.run_bind_of_ok hlock).trans hsecond

end

/-- Looks up what the inputs spend, one after the other. -/
def spentOutputs {m : Type → Type} [Monad m] (resolve : Resolver m) (net : Network)
    (inputs : List TxIn) : ExceptT Error m (List TxOut) :=
  inputs.mapM fun input => input.spends.output resolve net

/-- Looking values up and then taking a part of each is looking these parts up. -/
theorem mapM_bind_pure {m : Type → Type} [Monad m] [LawfulMonad m] {α β γ : Type} (f : α → m β)
    (g : β → γ) (as : List α) :
    (as.mapM fun a => do return g (← f a)) = do return (← as.mapM f).map g := by
  induction as with
  | nil => simp
  | cons a as ih =>
      simp only [List.mapM_cons, ih]
      simp

/-- The fee is what is left of the amounts of the outputs that the inputs spend. -/
theorem Tx.fee_eq {m : Type → Type} [Monad m] [LawfulMonad m] (resolve : Resolver m) (tx : Tx) :
    tx.fee resolve = do
      let spent ← spentOutputs resolve tx.network tx.inputs
      return totalAmount (spent.map TxOut.amount) - totalAmount (tx.outputs.map TxOut.amount) := by
  have hspent : (tx.inputs.mapM fun input => input.amount resolve tx.network)
      = do return (← spentOutputs resolve tx.network tx.inputs).map TxOut.amount :=
    mapM_bind_pure (fun input => input.spends.output resolve tx.network) TxOut.amount tx.inputs
  rw [fee, hspent]
  simp

/-- Outputs that are looked up one after the other are all kept. -/
theorem lookups_spent [Digests] {σ : Type} {behind : Option (Resolver (StateM σ))} {net : Network}
    {inputs : List TxIn} {spent : List TxOut} {store later : TxStore} {s t : σ}
    (hsound : store.Sound)
    (h : Runner.state.under.run (spentOutputs (TxStore.fetch behind) net inputs).run (store, s)
      = (.ok spent, (later, t))) :
    later.Sound ∧ later.Extends store ∧ ∀ (i : Nat) (input : TxIn), inputs[i]? = some input →
      ∃ output, spent[i]? = some output ∧ later.Keeps input.spends output := by
  induction inputs generalizing spent store s with
  | nil =>
      rw [spentOutputs, List.mapM_nil] at h
      obtain ⟨hspent, hstate⟩ := Prod.mk.inj ((Runner.state.under.run_pure _ _).symm.trans h)
      obtain ⟨rfl, rfl⟩ := Prod.mk.inj hstate
      obtain rfl := Except.ok.inj hspent
      refine ⟨hsound, .refl _, fun i other hother => ?_⟩
      rw [List.getElem?_nil] at hother
      exact nomatch hother
  | cons input inputs ih =>
      rw [spentOutputs, List.mapM_cons] at h
      obtain ⟨output, ⟨middle, u⟩, houtput, hrest⟩ := Runner.state.under.run_bind_eq_ok_iff.mp h
      obtain ⟨outputs, ⟨last, v⟩, houtputs, hdone⟩ := Runner.state.under.run_bind_eq_ok_iff.mp hrest
      obtain ⟨hspent, hstate⟩ := Prod.mk.inj ((Runner.state.under.run_pure _ _).symm.trans hdone)
      obtain ⟨rfl, rfl⟩ := Prod.mk.inj hstate
      obtain rfl := Except.ok.inj hspent
      obtain ⟨hmiddle, hextends, hkeeps⟩ := keeps_of_output hsound houtput
      obtain ⟨hlast, hextends', hall⟩ := ih hmiddle houtputs
      refine ⟨hlast, hextends.trans hextends', fun i other hother => ?_⟩
      cases i with
      | zero =>
          obtain rfl := Option.some.inj hother
          exact ⟨output, rfl, hkeeps.extends hextends'⟩
      | succ i => exact hall i other hother

namespace Tx

section

/-- What the signatures of an input sign can be written: the outputs, and the redeem script where
    one is signed. -/
def SignedWritable (tx : Tx) (input : TxIn) (lock : Script) : Prop :=
  ∀ redeem, input.signing? lock = some redeem →
    (∀ cmds, redeem = some cmds → cmds.Writable) ∧
      ∀ output ∈ tx.outputs, output.scriptPubKey.Writable

variable [Digests] {tx : Tx} {i : Nat} {lock : Script}

/-- There is a verdict exactly when all that is signed can be written. -/
theorem exists_verdict_iff_signedWritable (input : TxIn) (hi : i < tx.inputs.length)
    (hlock : lock.Writable) :
    (∃ b, tx.verdict i input lock = .ok b) ↔ tx.SignedWritable input lock := by
  rw [exists_verdict_iff hi]
  refine forall₂_congr fun redeem _ => and_congr_left fun _ => ?_
  cases redeem with
  | none =>
      constructor
      · intro _ cmds hcmds
        exact nomatch hcmds
      · intro _
        exact hlock
  | some cmds =>
      constructor
      · rintro h _ ⟨⟩
        exact h
      · intro h
        exact h cmds rfl

variable {σ : Type} {behind : Option (Resolver (StateM σ))} {store later : TxStore} {s t : σ}

/-- When all that the inputs spend can be looked up, the check of the transaction has an answer if
    every input has one. -/
theorem exists_run_verify {spent : List TxOut} (hsound : store.Sound)
    (h : Runner.state.under.run (spentOutputs (TxStore.fetch behind) tx.network tx.inputs).run
      (store, s) = (.ok spent, (later, t)))
    (hsigned : ∀ (i : Nat) (input : TxIn) (output : TxOut), tx.inputs[i]? = some input →
      spent[i]? = some output → tx.SignedWritable input output.scriptPubKey) :
    ∃ b, Runner.state.under.run (tx.verify (TxStore.fetch behind)).run (store, s)
      = (.ok b, (later, t)) := by
  obtain ⟨hlater, -, hkeeps⟩ := lookups_spent hsound h
  obtain ⟨fee, hfee⟩ : ∃ fee, Runner.state.under.run (tx.fee (TxStore.fetch behind)).run (store, s)
      = (.ok fee, (later, t)) := by
    rw [fee_eq]
    exact ⟨_, (Runner.state.under.run_bind_of_ok h).trans (Runner.state.under.run_pure _ _)⟩
  -- after the fee every lookup is answered from the store
  have hinputs : ∀ i ∈ List.range tx.inputs.length, ∃ b,
      Runner.state.under.Settles (· = (later, t)) (tx.verifyInput (TxStore.fetch behind) i).run
        (.ok b) := by
    intro i hi
    have hlt : i < tx.inputs.length := List.mem_range.mp hi
    have hinput := List.getElem?_eq_getElem hlt
    obtain ⟨output, houtput, hkept⟩ := hkeeps i _ hinput
    obtain ⟨b, hb⟩ := (exists_verdict_iff_signedWritable _ hlt (hkept.writable hlater)).mpr
      (hsigned i _ output hinput houtput)
    have hfound : Runner.state.under.Settles (· = (later, t))
        (tx.inputs[i].spends.output (TxStore.fetch behind) tx.network).run (.ok output) :=
      hkept.settles t
    have hcheck := settles_verifyInput hinput (settles_scriptPubKey hfound)
    refine ⟨b, ?_⟩
    rw [← hb]
    exact hcheck
  obtain ⟨b, hall⟩ := Runner.exists_settles_allM hinputs
  obtain ⟨_, rfl, hrun⟩ := hall _ rfl
  rw [verify, Runner.state.under.run_bind_of_ok hfee]
  by_cases hneg : fee < 0
  · rw [if_pos hneg]
    exact ⟨false, Runner.state.under.run_pure _ _⟩
  · rw [if_neg hneg]
    exact ⟨b, hrun⟩

/-- Through a store that operations have made, the check of an input whose output is found has an
    answer exactly when what its signatures sign can be written, and otherwise fails for a push that
    is too long; and the check of a transaction has an answer when all its outputs are found and
    all its inputs have one. -/
theorem answers_of_resolved (hstore : store.Reached) (tx : Tx) (s : σ) :
    (∀ (i : Nat) (input : TxIn) (output : TxOut) (later : TxStore) (t : σ),
      tx.inputs[i]? = some input →
      ((input.spends.output (TxStore.fetch behind) tx.network).run.run store).run s
        = ((.ok output, later), t) →
      (tx.SignedWritable input output.scriptPubKey → ∃ b,
        ((tx.verifyInput (TxStore.fetch behind) i).run.run store).run s = ((.ok b, later), t)) ∧
      (¬ tx.SignedWritable input output.scriptPubKey → ∃ e : Error, e.Overlong ∧
        ((tx.verifyInput (TxStore.fetch behind) i).run.run store).run s
          = ((.error e, later), t))) ∧
    ∀ (spent : List TxOut) (later : TxStore) (t : σ),
      ((spentOutputs (TxStore.fetch behind) tx.network tx.inputs).run.run store).run s
        = ((.ok spent, later), t) →
      (∀ (i : Nat) (input : TxIn) (output : TxOut), tx.inputs[i]? = some input →
        spent[i]? = some output → tx.SignedWritable input output.scriptPubKey) →
      ∃ b, ((tx.verify (TxStore.fetch behind)).run.run store).run s = ((.ok b, later), t) := by
  constructor
  · intro i input output later t hinput hresolve
    have hfound := Runner.under_state_eq_iff.mpr hresolve
    have hi : i < tx.inputs.length := (List.getElem?_eq_some_iff.mp hinput).1
    obtain ⟨hlater, -, hkeeps⟩ := keeps_of_output hstore.sound hfound
    have hcheck := Runner.under_state_eq_iff.mp (run_verifyInput hstore.sound hinput hfound)
    have hanswer := exists_verdict_iff_signedWritable input hi (hkeeps.writable hlater)
    constructor
    · intro hsigned
      obtain ⟨b, hb⟩ := hanswer.mpr hsigned
      exact ⟨b, hb ▸ hcheck⟩
    · intro hsigned
      cases hverdict : tx.verdict i input output.scriptPubKey with
      | ok b => exact absurd (hanswer.mp ⟨b, hverdict⟩) hsigned
      | error e => exact ⟨e, failsOnly_verdict tx i input _ e hverdict, hverdict ▸ hcheck⟩
  · intro spent later t hresolve hsigned
    obtain ⟨b, hrun⟩ := exists_run_verify hstore.sound (Runner.under_state_eq_iff.mpr hresolve)
      hsigned
    exact ⟨b, Runner.under_state_eq_iff.mp hrun⟩

end

/-- A transaction with one output, which is locked to the script hash of zeros. -/
def lockingTx : Tx := ⟨1, [], [⟨1000, (Payee.scriptHash (FixedBytes.zero 20)).script⟩], 0, .main⟩

/-- The bytes of that transaction. -/
def lockingBytes : Bytes :=
  [1, 0, 0, 0, 0, 1, 0xe8, 3, 0, 0, 0, 0, 0, 0, 23, Opcode.hash160, 20] ++ List.replicate 20 0 ++
    [Opcode.equal, 0, 0, 0, 0]

/-- The id of that transaction. -/
def lockingId : Txid := (Digests.standard.hash256 lockingBytes).reverse

/-- A store that keeps that transaction. -/
def lockingStore : TxStore := TxStore.empty.put lockingId lockingTx

/-- Names the output of that transaction. -/
def lockingOutpoint : Outpoint := ⟨lockingId, 0⟩

/-- Spends that output with the given script. -/
def unlockingInput (script : Script) : TxIn := ⟨lockingOutpoint, script, 0xffffffff⟩

/-- A transaction with that input. -/
def unlockingTx (script : Script) : Tx := ⟨1, [unlockingInput script], [], 0, .main⟩

/-- The store with that transaction is reached by putting it in. -/
theorem reached_lockingStore : @TxStore.Reached Digests.standard lockingStore := by
  let _ : Digests := Digests.standard
  have hbytes : lockingTx.bytes = .ok lockingBytes := rfl
  have htxid : lockingTx.txid = .ok lockingId := by
    rw [txid, hbytes]
    rfl
  have hinsert : TxStore.empty.insert lockingTx = .ok (lockingId, lockingStore) := by
    rw [TxStore.insert, htxid]
    rfl
  exact TxStore.Reached.insert .empty hinsert

/-- Finds what the store keeps. -/
def storeResolver : Resolver (StateT TxStore (StateM Unit)) :=
  @TxStore.fetch _ _ Digests.standard none

/-- The output of that transaction. -/
def lockingOutput : TxOut := ⟨1000, (Payee.scriptHash (FixedBytes.zero 20)).script⟩

/-- The output is found in the store. -/
theorem output_lockingStore :
    ((lockingOutpoint.output storeResolver .main).run.run lockingStore).run ()
      = ((.ok lockingOutput, lockingStore), ()) := by
  let _ : Digests := Digests.standard
  have hfind : lockingStore.find? lockingId = some lockingTx := by
    rw [lockingStore, TxStore.find?_put, if_pos rfl]
  have hkeeps : lockingStore.Keeps lockingOutpoint lockingOutput := ⟨lockingTx, hfind, rfl⟩
  obtain ⟨_, rfl, hrun⟩ := hkeeps.settles (R := Runner.state) () _ rfl
  exact Runner.under_state_eq_iff.mp hrun

/-- A transaction that spends that output, with a push for its script. -/
theorem answers_of_resolved_direct :
    @TxStore.Reached Digests.standard lockingStore ∧
      (∃ b, ((@verifyInput _ _ Digests.standard storeResolver (unlockingTx [.data [Opcode.pushOne]])
        0).run.run lockingStore).run () = ((.ok b, lockingStore), ())) ∧
      ∃ b, ((@verify _ _ Digests.standard storeResolver (unlockingTx [.data [Opcode.pushOne]])
        ).run.run lockingStore).run () = ((.ok b, lockingStore), ()) := by
  have hredeem : (unlockingInput [.data [Opcode.pushOne]]).redeemScript?
      = some [.op Opcode.pushOne] :=
    TxIn.redeemScript?_eq_some_iff.mpr ⟨[], [Opcode.pushOne], rfl, Script.ofRaw_op rfl⟩
  have hsigned : (unlockingTx [.data [Opcode.pushOne]]).SignedWritable
      (unlockingInput [.data [Opcode.pushOne]]) lockingOutput.scriptPubKey := by
    intro redeem h
    obtain rfl := Option.some.inj ((TxIn.signing?_scriptHash hredeem).symm.trans h)
    refine ⟨?_, fun output houtput => nomatch houtput⟩
    rintro _ ⟨⟩
    decide
  have hspent : ((spentOutputs storeResolver .main
      (unlockingTx [.data [Opcode.pushOne]]).inputs).run.run lockingStore).run ()
        = ((.ok [lockingOutput], lockingStore), ()) := by
    refine Runner.under_state_eq_iff.mp ?_
    rw [spentOutputs, unlockingTx, List.mapM_cons, List.mapM_nil]
    refine (Runner.state.under.run_bind_of_ok
      (Runner.under_state_eq_iff.mpr output_lockingStore)).trans ?_
    exact Runner.state.under.run_pure _ _
  obtain ⟨hinputs, hall⟩ := @answers_of_resolved Digests.standard Unit none lockingStore
    reached_lockingStore (unlockingTx [.data [Opcode.pushOne]]) ()
  refine ⟨reached_lockingStore, ?_, hall _ _ _ hspent ?_⟩
  · exact (hinputs 0 _ _ _ _ rfl output_lockingStore).1 hsigned
  · intro i input output hinput houtput
    cases i with
    | zero =>
        obtain rfl := Option.some.inj hinput
        obtain rfl := Option.some.inj houtput
        exact hsigned
    | succ i => exact nomatch hinput

/-- A redeem script that pushes one byte more than may be pushed. -/
def overlongRedeem : Bytes := Opcode.pushData2 :: 9 :: 2 :: List.replicate 521 0x51

/-- The bytes of a script that pushes this redeem script. -/
def overlongUnlocking : Script.Layout :=
  ⟨⟨.two, 527, by decide⟩, [.push .data2 overlongRedeem (by decide +kernel)], by decide +kernel⟩

/-- The bytes of a transaction whose input spends that output with this script. -/
def overlongSpending : Layout :=
  { Layout.ofScript overlongUnlocking with
    inputs := ⟨(Layout.ofScript overlongUnlocking).inputs.count,
      [⟨lockingOutpoint, overlongUnlocking, 0xffffffff⟩], rfl⟩ }

/-- A redeem script with a push that is too long is read, and is not written for its signatures. -/
theorem answers_of_resolved_fails :
    read .main overlongSpending.bytes = .ok (unlockingTx [.data overlongRedeem], []) ∧
      @TxStore.Reached Digests.standard lockingStore ∧
      (unlockingTx [.data overlongRedeem]).inputs[0]?
        = some (unlockingInput [.data overlongRedeem]) ∧
      (((unlockingInput [.data overlongRedeem]).spends.output storeResolver .main).run.run
        lockingStore).run () = ((.ok lockingOutput, lockingStore), ()) ∧
      ((@verifyInput _ _ Digests.standard storeResolver (unlockingTx [.data overlongRedeem])
        0).run.run lockingStore).run () = ((.error (.pushTooLong 521), lockingStore), ()) := by
  refine ⟨overlongSpending.read_bytes .main, reached_lockingStore, rfl, output_lockingStore, ?_⟩
  let _ : Digests := Digests.standard
  have hraw : Script.ofRaw overlongRedeem = .ok [.data (List.replicate 521 0x51)] :=
    Script.ofRaw_eq_ok_iff.mpr
      ⟨[.push .data2 (List.replicate 521 0x51) (by decide +kernel)], rfl, by decide +kernel⟩
  have hredeem : (unlockingInput [.data overlongRedeem]).redeemScript?
      = some [.data (List.replicate 521 0x51)] :=
    TxIn.redeemScript?_eq_some_iff.mpr ⟨[], overlongRedeem, rfl, hraw⟩
  have hpreimage : (unlockingTx [.data overlongRedeem]).preimage 0
      [.data (List.replicate 521 0x51)] = .error (.pushTooLong 521) := by decide +kernel
  have hverdict : (unlockingTx [.data overlongRedeem]).verdict 0
      (unlockingInput [.data overlongRedeem]) lockingOutput.scriptPubKey
        = .error (.pushTooLong 521) := by
    rw [verdict, lockingOutput, TxIn.signing?_scriptHash hredeem]
    dsimp only [Option.getD_some]
    rw [digest, hpreimage]
    rfl
  have hinput : (unlockingTx [.data overlongRedeem]).inputs[0]?
      = some (unlockingInput [.data overlongRedeem]) := rfl
  have hfound := Runner.under_state_eq_iff.mpr output_lockingStore
  have hcheck := run_verifyInput reached_lockingStore.sound hinput hfound
  rw [hverdict] at hcheck
  exact Runner.under_state_eq_iff.mp hcheck

end Tx

end Bitcoin
