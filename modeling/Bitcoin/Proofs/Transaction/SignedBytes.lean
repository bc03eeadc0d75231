import Bitcoin.Proofs.Transaction.Redemption
import Bitcoin.Proofs.Wire.Transaction

/-!
# What a signature of a redeem script signs

An output that is locked to a script hash commits to the bytes of a redeem script. The signatures
sign a byte form of the transaction in which those bytes stand in the place of the input's script.
But the check of an input makes a script of the bytes and writes it again, and only a script in the
forms that are written has the same bytes afterwards. Otherwise the digest is another one, and a
signature of the bytes that were pushed is refused.

* **`preimage_of_body`**: what is signed for a script is what is signed for its bytes.
* **`signs_redeem_bytes`**: the digest that the check hands to the machine.
* **`signs_redeem_bytes_fails`**: another digest for a push in another form.
-/

namespace Bitcoin

/-- Bytes with their length in front. -/
def CompactSize.prefixed (bs : Bytes) : Bytes := encode bs.length ++ bs

/-- The bytes of an input with the given bytes in the place of its script. -/
def TxIn.bytesAround (input : TxIn) (script : Bytes) : Bytes :=
  input.spends.bytes ++ CompactSize.prefixed script ++ leFixed 4 input.sequence.toNat

/-- An input with a script in its place has the bytes of the script there. -/
theorem TxIn.bytesWith_of_body {input : TxIn} {s : Script} {bs : Bytes} (h : s.body = .ok bs) :
    input.bytesWith s = .ok (input.bytesAround bs) :=
  bytesWith_eq_ok_iff.mpr ⟨_, Script.bytes_eq_ok_iff.mpr ⟨bs, h, rfl⟩, rfl⟩

namespace Tx

/-- The bytes that a signature of the given input signs, with the bytes of a script in its place. -/
def signedBytes (tx : Tx) (index : Nat) (raw : Bytes) : Except Error Bytes := do
  let inputs := tx.inputs.zipIdx.map fun (input, i) =>
    input.bytesAround (if i = index then raw else [])
  return tx.headBytes inputs ++ (← tx.tailBytes) ++ leFixed 4 sigHashAll

/-- What is signed for a script is what is signed for its bytes. -/
theorem preimage_of_body {tx : Tx} {index : Nat} {code : Script} {raw : Bytes}
    (h : code.body = .ok raw) : tx.preimage index code = tx.signedBytes index raw := by
  have hinput : (fun (input, i) => TxIn.bytesWith input (if i = index then code else []))
      = fun (p : TxIn × Nat) =>
          (pure (p.1.bytesAround (if p.2 = index then raw else [])) : Except Error Bytes) := by
    funext ⟨input, i⟩
    by_cases hi : i = index
    · dsimp only
      rw [if_pos hi, if_pos hi]
      exact TxIn.bytesWith_of_body h
    · dsimp only
      rw [if_neg hi, if_neg hi]
      exact TxIn.bytesWith_of_body rfl
  rw [preimage, hinput, List.mapM_pure]
  rfl

section

variable [Digests] {σ : Type} {resolve : Resolver (StateM σ)} {tx : Tx} {i : Nat} {input : TxIn}
  {h : Hash160} {cmds : Script} {s s' : σ}

/-- The digest for a redeem script needs no lookup. -/
theorem sigHash_redeem (hinput : tx.inputs[i]? = some input) :
    (tx.sigHash resolve i (some cmds)).run.run s
      = ((tx.preimage i cmds).map fun bs => (beValue (Digests.hash256 bs).toBytes : Int), s) := by
  rw [sigHash, hinput]
  dsimp only
  rw [pure_bind]
  cases tx.preimage i cmds with
  | error e => rfl
  | ok bs => rfl

/-- What the check of an input runs when its signatures sign the given bytes for a redeem script. -/
def redeemRun (tx : Tx) (input : TxIn) (lock cmds : Script) (signed : Bytes) : InputRun :=
  ⟨some cmds, tx.spendContext input (beValue (Digests.hash256 signed).toBytes),
    input.scriptSig ++ lock⟩

/-- The check of an input that spends from a script hash runs with the digest of what is signed for
    the redeem script. -/
theorem inputRun_redeem (hinput : tx.inputs[i]? = some input)
    (hlock : (input.scriptPubKey resolve tx.network).run.run s
      = (.ok (Payee.scriptHash h).script, s'))
    (hredeem : input.redeemScript? = some cmds) :
    (tx.inputRun resolve i).run.run s = ((tx.preimage i cmds).map
      (fun bs => some (tx.redeemRun input (Payee.scriptHash h).script cmds bs)), s') := by
  rw [inputRun_of_lock hinput hlock, TxIn.signing?_scriptHash hredeem]
  dsimp only
  have hsig := @sigHash_redeem _ _ resolve tx i input cmds s' hinput
  cases hbytes : tx.preimage i cmds with
  | error e =>
      rw [hbytes] at hsig
      exact Lookup.run_bind_of_error hsig
  | ok bs =>
      rw [hbytes] at hsig
      exact Lookup.run_bind_of_ok hsig

/-- For an input that spends from a script hash, the digest that the check hands to the machine is
    the one of the transaction with the pushed bytes in the place of the input's script, when every
    push in those bytes has the form that is written for it. -/
theorem signs_redeem_bytes {raw : Bytes} (hinput : tx.inputs[i]? = some input)
    (hlock : (input.scriptPubKey resolve tx.network).run.run s
      = (.ok (Payee.scriptHash h).script, s'))
    (hlast : input.scriptSig.getLast? = some (.data raw)) (hraw : Script.ofRaw raw = .ok cmds)
    (hpushes : Script.PushesCanonical raw) :
    (tx.inputRun resolve i).run.run s = ((tx.signedBytes i raw).map
        (fun bs => some (tx.redeemRun input (Payee.scriptHash h).script cmds bs)), s') ∧
      (tx.verifyInput resolve i).run.run s = ((tx.signedBytes i raw).map
        (fun bs => (input.scriptSig ++ (Payee.scriptHash h).script).evaluate
          (tx.spendContext input (beValue (Digests.hash256 bs).toBytes))), s') := by
  have hredeem : input.redeemScript? = some cmds := by
    obtain ⟨a, ha⟩ := List.getLast?_eq_some_iff.mp hlast
    exact TxIn.redeemScript?_eq_some_iff.mpr ⟨a, raw, ha, hraw⟩
  have hrun := inputRun_redeem hinput hlock hredeem
  rw [preimage_of_body ((Script.body_eq_ok_iff_of_ofRaw hraw).mpr hpushes)] at hrun
  refine ⟨hrun, ?_⟩
  rw [verifyInput_eq_inputRun]
  cases hbytes : tx.signedBytes i raw with
  | error e =>
      rw [hbytes] at hrun
      exact Lookup.run_bind_of_error hrun
  | ok bs =>
      rw [hbytes] at hrun
      exact Lookup.run_bind_of_ok hrun

end

/-- Locks an output to the hash of the given bytes. -/
def lockFor (raw : Bytes) : Script := (Payee.scriptHash (Digests.standard.hash160 raw)).script

/-- The bytes of a redeem script with a push that is announced by its number alone. -/
def directBytes : Bytes := [0x01, 0x51]

/-- The bytes of a redeem script with the same push, announced by an opcode and its number. -/
def announcedBytes : Bytes := [0x4c, 0x01, 0x51]

theorem ofRaw_directBytes : Script.ofRaw directBytes = .ok [.data [0x51]] :=
  Script.ofRaw_eq_ok_iff.mpr ⟨[.push .direct [0x51] (by decide)], rfl, rfl⟩

theorem ofRaw_announcedBytes : Script.ofRaw announcedBytes = .ok [.data [0x51]] :=
  Script.ofRaw_eq_ok_iff.mpr ⟨[.push .data1 [0x51] (by decide)], rfl, rfl⟩

/-- The push in the form that is written for it, for which the two agree. -/
theorem signs_redeem_bytes_direct :
    (spendingWith [.data directBytes]).inputs[0]? = some (spendingInput [.data directBytes]) ∧
      ((spendingInput [.data directBytes]).scriptPubKey (lockedResolver (lockFor directBytes))
        .main).run.run () = (.ok (lockFor directBytes), ()) ∧
      (spendingInput [.data directBytes]).scriptSig.getLast? = some (.data directBytes) ∧
      Script.ofRaw directBytes = .ok [.data [0x51]] ∧ Script.PushesCanonical directBytes ∧
      (@inputRun _ _ Digests.standard (lockedResolver (lockFor directBytes))
          (spendingWith [.data directBytes]) 0).run.run ()
        = (((spendingWith [.data directBytes]).signedBytes 0 directBytes).map
            (fun bs => some (@redeemRun Digests.standard (spendingWith [.data directBytes])
              (spendingInput [.data directBytes]) (lockFor directBytes) [.data [0x51]] bs)), ()) ∧
      (@verifyInput _ _ Digests.standard (lockedResolver (lockFor directBytes))
          (spendingWith [.data directBytes]) 0).run.run ()
        = (((spendingWith [.data directBytes]).signedBytes 0 directBytes).map
            (fun bs => @Script.evaluate Digests.standard
              ((spendingWith [.data directBytes]).spendContext (spendingInput [.data directBytes])
                (beValue (Digests.standard.hash256 bs).toBytes))
              ([.data directBytes] ++ lockFor directBytes)), ()) := by
  have hpushes : Script.PushesCanonical directBytes :=
    (@Script.pushesCanonical_iff [.push .direct [0x51] (by decide)]).mpr (by decide)
  exact ⟨rfl, rfl, rfl, ofRaw_directBytes, hpushes, @signs_redeem_bytes Digests.standard Unit
    (lockedResolver (lockFor directBytes)) (spendingWith [.data directBytes]) 0
    (spendingInput [.data directBytes]) _ _ () () directBytes rfl rfl rfl ofRaw_directBytes hpushes⟩

/-- For a push that is announced with more bytes than it needs the machine is handed another
    digest. -/
theorem signs_redeem_bytes_fails : ∃ (run : InputRun) (bs : Bytes),
    (spendingInput [.data announcedBytes]).scriptSig.getLast? = some (.data announcedBytes) ∧
      Script.ofRaw announcedBytes = .ok [.data [0x51]] ∧
      ((@inputRun _ _ Digests.standard (lockedResolver (lockFor announcedBytes))
        (spendingWith [.data announcedBytes]) 0).run.run ()).1 = .ok (some run) ∧
      (spendingWith [.data announcedBytes]).signedBytes 0 announcedBytes = .ok bs ∧
      run.ctx.z ≠ beValue (Digests.standard.hash256 bs).toBytes := by
  let _ : Digests := Digests.standard
  have hredeem : (spendingInput [.data announcedBytes]).redeemScript? = some [.data [0x51]] :=
    TxIn.redeemScript?_eq_some_iff.mpr ⟨[], announcedBytes, rfl, ofRaw_announcedBytes⟩
  have hlock : ((spendingInput [.data announcedBytes]).scriptPubKey
      (lockedResolver (lockFor announcedBytes)) .main).run.run ()
        = (.ok (Payee.scriptHash (Digests.hash160 announcedBytes)).script, ()) := rfl
  have hinput : (spendingWith [.data announcedBytes]).inputs[0]?
      = some (spendingInput [.data announcedBytes]) := rfl
  have hrun := inputRun_redeem hinput hlock hredeem
  refine ⟨_, _, rfl, ofRaw_announcedBytes, congrArg Prod.fst hrun, rfl, ?_⟩
  decide +kernel

end Tx

end Bitcoin
