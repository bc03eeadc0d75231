import Bitcoin.Proofs.Key.RoundTrip
import Bitcoin.Proofs.Transaction.Verdict

/-!
# Signing an input that spends from a key hash

Signing writes a signature and the public key of the signer into the input. The check that follows
signs the same number, reads both back, and compares the hash of the public key with the hash that
locks the output. So signing succeeds for every key whose signature is in range, and says whether
the output was locked to that key.

* **`Script.evaluate_unlockKeyHash`**: the verdict on a signature that holds.
* **`signInput_keyHash`**: what signing gives and puts in.
-/

namespace Bitcoin

/-- A push that is not in front of a script hash goes on the stack. -/
theorem Machine.execute_data [Digests] {ctx : SpendContext} {s alt : Stack} {bs : Bytes}
    {rest : Script} (h : Script.scriptHash? rest = none) :
    execute ctx ⟨s, alt, .data bs :: rest⟩ = execute ctx ⟨bs :: s, alt, rest⟩ := by
  rw [execute, run_data h]
  rfl

/-- A script that locks to the hash of a key does not lock to a script hash. -/
theorem Script.scriptHash?_keyHash (h : Hash160) :
    Script.scriptHash? (Payee.keyHash h).script = none :=
  rfl

/-- Its push is short enough to be written. -/
theorem Script.writable_keyHash (h : Hash160) : (Payee.keyHash h).script.Writable := by
  have hdata : (Command.data h.toBytes).Writable := by
    show h.toBytes.length ≤ maxPushSize
    rw [h.length_toBytes]
    decide
  simpa only [Payee.script, Script.Writable, List.forall_mem_cons, Command.Writable, true_and,
    List.not_mem_nil, false_imp_iff, implies_true, and_true] using hdata

/-- With a signature that holds, a coin locked to a key hash is unlocked by the key with that
    hash. -/
theorem Script.evaluate_unlockKeyHash [Digests] {ctx : SpendContext} {signature sec : Bytes}
    (hholds : signatureHolds sec signature ctx.z = .ok true) (h : Hash160) :
    Script.evaluate ctx (Script.unlockKeyHash signature sec ++ (Payee.keyHash h).script)
      = decide (Digests.hash160 sec = h) := by
  have hpushed : Machine.execute ctx
      (Machine.start (Script.unlockKeyHash signature sec ++ (Payee.keyHash h).script))
        = Machine.execute ctx ⟨[sec, signature], [], (Payee.keyHash h).script⟩ := by
    have hsec : Script.scriptHash? (.data sec :: (Payee.keyHash h).script) = none := rfl
    exact (Machine.execute_data hsec).trans (Machine.execute_data (scriptHash?_keyHash h))
  rw [Bool.eq_iff_iff, Script.evaluate_eq_true_iff, decide_eq_true_iff]
  refine Iff.trans (Eq.congr_left hpushed) ?_
  rw [Machine.execute_keyHash_eq_ok_iff]
  constructor
  · rintro ⟨sec', signature', r, hstack, hhash, -⟩
    obtain ⟨rfl, -⟩ := List.cons.inj hstack
    exact hhash
  · intro hhash
    exact ⟨sec, signature, [], rfl, hhash, hholds⟩

namespace Tx

section

variable [Digests] {tx : Tx} {i : Nat} {input : TxIn} {key : PrivateKey} {h : Hash160}

/-- What signing makes of an output that is locked to a key hash. -/
theorem signing_keyHash {z : Int} {sig : Signature} (input : TxIn)
    (hz : tx.digest i (Payee.keyHash h).script = .ok z)
    (hsign : key.sign z = some (.ok sig)) (hr : sig.r < Secp256k1.order) (hs : sig.s ≠ 0) :
    ∃ sec script, key.publicKey.sec true = .ok sec ∧
      tx.signing i input key (.ok (Payee.keyHash h).script)
        = some (.ok (decide (Digests.hash160 sec = h)), some script) := by
  obtain ⟨der, sec, hder, hsec, hcheck⟩ := PrivateKey.exists_signatureHolds hsign hr hs
  have hholds : signatureHolds sec (der ++ leFixed 1 sigHashAll) z = .ok true := by
    have hone : leFixed 1 sigHashAll = [0x01] := rfl
    rw [hone]
    exact hcheck 0x01
  have hunlock : key.unlockingScript z
      = some (.ok (Script.unlockKeyHash (der ++ leFixed 1 sigHashAll) sec)) := by
    refine Option.map_eq_some_iff.mpr ⟨.ok sig, hsign, ?_⟩
    refine Except.bind_eq_ok_iff.mpr ⟨sig, rfl, ?_⟩
    refine Except.bind_eq_ok_iff.mpr ⟨der, hder, ?_⟩
    exact Except.bind_eq_ok_iff.mpr ⟨sec, hsec, rfl⟩
  -- the same number is signed for the check, because the locking script is signed in both
  have hverdict : ∀ signed : TxIn,
      signed.scriptSig = Script.unlockKeyHash (der ++ leFixed 1 sigHashAll) sec →
      tx.verdict i signed (Payee.keyHash h).script = .ok (decide (Digests.hash160 sec = h)) := by
    intro signed hsigned
    rw [verdict, TxIn.signing?, Script.scriptHash?_keyHash]
    refine Except.bind_eq_ok_iff.mpr ⟨z, hz, ?_⟩
    rw [hsigned]
    have heval := @Script.evaluate_unlockKeyHash _ (tx.spendContext signed z) _ _ hholds h
    exact congrArg Except.ok heval
  refine ⟨sec, Script.unlockKeyHash (der ++ leFixed 1 sigHashAll) sec, hsec, ?_⟩
  have hdigest : Except.bind (.ok (Payee.keyHash h).script) (tx.digest i) = .ok z := hz
  rw [signing, hdigest]
  dsimp only
  rw [hunlock]
  exact congrArg some (Prod.ext (hverdict _ rfl) rfl)

variable {σ : Type} {resolve : Resolver (StateM σ)} {S : σ → Prop} {s : σ}

/-- Signing an input that spends from a key hash says whether that is the hash of the signer's
    public key, for every transaction whose outputs can be written and every signature whose first
    number is below the order and whose second is not zero. -/
theorem signInput_keyHash (hinput : tx.inputs[i]? = some input)
    (houtputs : ∀ output ∈ tx.outputs, ∃ bs, output.bytes = .ok bs)
    (hlock : Runner.state.Settles S (input.scriptPubKey resolve tx.network).run
      (.ok (Payee.keyHash h).script))
    (hs : S s)
    (hsign : ∀ z, ((tx.sigHash resolve i none).run.run s).1 = .ok z →
      ∃ sig, key.sign z = some (.ok sig) ∧ sig.r < Secp256k1.order ∧ sig.s ≠ 0) :
    ∃ sec script, key.publicKey.sec true = .ok sec ∧
      ((tx.signInput resolve i key).run s).1
        = some (.ok (decide (Digests.hash160 sec = h)), tx.setScriptSig i script) := by
  have hi : i < tx.inputs.length := (List.getElem?_eq_some_iff.mp hinput).1
  obtain ⟨z, hz⟩ := (exists_digest_iff hi).mpr ⟨Script.writable_keyHash h,
    fun output ho => TxOut.exists_bytes_iff.mp (houtputs output ho)⟩
  have hsigHash : ((tx.sigHash resolve i none).run.run s).1 = .ok z := by
    obtain ⟨t, -, ht⟩ := settles_sigHash hinput hlock s hs
    exact (congrArg Prod.fst ht).trans hz
  obtain ⟨sig, hsig, hr, hsne⟩ := hsign z hsigHash
  obtain ⟨sec, script, hsec, hsigning⟩ := signing_keyHash input hz hsig hr hsne
  obtain ⟨t, -, ht⟩ := settles_signInput hinput hlock key s hs
  rw [hsigning] at ht
  exact ⟨sec, script, hsec, congrArg Prod.fst ht⟩

end

/-- The secret one signs zero with the nonce one, and both numbers are in range. -/
theorem exists_sign_one_zero : ∃ sig,
    @PrivateKey.sign PrivateKey.constantDigests .one 0 = some (.ok sig) ∧
      sig.r < Secp256k1.order ∧ sig.s ≠ 0 := by
  have hcheck : ((PrivateKey.signWith 1 1 0).toOption.any fun sig =>
      decide (sig.r < (Secp256k1.order : Int) ∧ sig.s ≠ 0)) = true := by
    decide +kernel
  cases hsign : PrivateKey.signWith 1 1 0 with
  | error e =>
      rw [hsign] at hcheck
      exact nomatch hcheck
  | ok sig =>
      rw [hsign] at hcheck
      refine ⟨sig, ?_, of_decide_eq_true hcheck⟩
      refine (@PrivateKey.sign.eq_1 PrivateKey.constantDigests .one 0).trans ?_
      rw [PrivateKey.find?_constantDigests]
      exact congrArg some hsign

/-- The key one signs an input that is locked to a hash, with digests that are all the same. -/
theorem signInput_keyHash_one :
    (spendingWith []).inputs[0]? = some (spendingInput []) ∧
      (∀ output ∈ (spendingWith []).outputs, ∃ bs, output.bytes = .ok bs) ∧
      Runner.state.Settles (fun _ => True) ((spendingInput []).scriptPubKey
        (lockedResolver (Payee.keyHash (FixedBytes.zero 20)).script) .main).run
        (.ok (Payee.keyHash (FixedBytes.zero 20)).script) ∧
      (∀ z, ((@sigHash _ _ PrivateKey.constantDigests
          (lockedResolver (Payee.keyHash (FixedBytes.zero 20)).script) (spendingWith []) 0
          none).run.run ()).1 = .ok z →
        ∃ sig, @PrivateKey.sign PrivateKey.constantDigests .one z = some (.ok sig) ∧
          sig.r < Secp256k1.order ∧ sig.s ≠ 0) ∧
      ∃ sec script, PrivateKey.one.publicKey.sec true = .ok sec ∧
        ((@signInput _ _ PrivateKey.constantDigests
          (lockedResolver (Payee.keyHash (FixedBytes.zero 20)).script) (spendingWith []) 0
          .one).run ()).1
          = some (.ok (decide (PrivateKey.constantDigests.hash160 sec = FixedBytes.zero 20)),
              (spendingWith []).setScriptSig 0 script) := by
  have hlock : Runner.state.Settles (fun _ => True) ((spendingInput []).scriptPubKey
      (lockedResolver (Payee.keyHash (FixedBytes.zero 20)).script) .main).run
      (.ok (Payee.keyHash (FixedBytes.zero 20)).script) := fun _ _ => ⟨(), trivial, rfl⟩
  have houtputs : ∀ output ∈ (spendingWith []).outputs, ∃ bs, output.bytes = .ok bs :=
    fun _ ho => nomatch ho
  have hsign : ∀ z, ((@sigHash _ _ PrivateKey.constantDigests
      (lockedResolver (Payee.keyHash (FixedBytes.zero 20)).script) (spendingWith []) 0
      none).run.run ()).1 = .ok z →
      ∃ sig, @PrivateKey.sign PrivateKey.constantDigests .one z = some (.ok sig) ∧
        sig.r < Secp256k1.order ∧ sig.s ≠ 0 := by
    intro z hz
    have hzero : ((@sigHash _ _ PrivateKey.constantDigests
      (lockedResolver (Payee.keyHash (FixedBytes.zero 20)).script) (spendingWith []) 0
      none).run.run ()).1 = .ok 0 := rfl
    obtain rfl := Except.ok.inj (hzero.symm.trans hz)
    exact exists_sign_one_zero
  exact ⟨rfl, houtputs, hlock, hsign, @signInput_keyHash PrivateKey.constantDigests
    (spendingWith []) 0 (spendingInput []) .one (FixedBytes.zero 20) Unit _ _ () rfl houtputs hlock
    trivial hsign⟩

end Tx

end Bitcoin
