import Bitcoin.Proofs.Key.Sec
import Bitcoin.Proofs.Key.Signing
import Bitcoin.Proofs.Transaction.Verdict

/-!
# Inputs are signed in any order

What a signature signs does not depend on the scripts that the inputs carry, so signing one input
changes nothing for another one. The check at the end of signing does not fail for a reason that
was not there before: it signs for the same script, or for one that is made of the 33 bytes of a
public key. So an error leaves the transaction as it was.

* **`signing_error`**: when signing fails, no script is put in.
* **`signing_eq_none_iff`**: signing has a result unless the search for a nonce does not end.
* **`signInput_any_order`**: two inputs in either order, and what signing leaves alone.
-/

namespace Bitcoin

/-- The answers of a lookup depend on nothing but what is asked for. -/
def Resolver.Deterministic {σ : Type} (resolve : Resolver (StateM σ)) : Prop :=
  ∀ id net s t, ((resolve id net).run.run s).1 = ((resolve id net).run.run t).1

namespace Tx

/-- Signs two inputs, one after the other. -/
def signBoth {m : Type → Type} [Monad m] [Digests] (resolve : Resolver m) (tx : Tx)
    (i : Nat) (key : PrivateKey) (j : Nat) (other : PrivateKey) :
    m (Option (Except Error Bool × Except Error Bool × Tx)) := do
  match ← tx.signInput resolve i key with
  | none => return none
  | some (first, tx) =>
      match ← tx.signInput resolve j other with
      | none => return none
      | some (second, tx) => return some (first, second, tx)

section

variable {tx : Tx} {i j : Nat}

theorem signedAlike_putScriptSig (tx : Tx) (i : Nat) (put : Option Script) :
    tx.SignedAlike (tx.putScriptSig i put) := by
  cases put with
  | none => exact .refl tx
  | some s => exact signedAlike_setScriptSig tx i s

theorem network_putScriptSig (tx : Tx) (i : Nat) (put : Option Script) :
    (tx.putScriptSig i put).network = tx.network := by
  cases put <;> rfl

theorem getElem?_putScriptSig_of_ne (h : i ≠ j) (put : Option Script) :
    (tx.putScriptSig i put).inputs[j]? = tx.inputs[j]? := by
  cases put with
  | none => rfl
  | some s => exact getElem?_setScriptSig_of_ne h s

/-- Scripts of two inputs are put in in either order. -/
theorem putScriptSig_comm (h : i ≠ j) (first second : Option Script) :
    (tx.putScriptSig i first).putScriptSig j second
      = (tx.putScriptSig j second).putScriptSig i first := by
  cases first with
  | none => rfl
  | some s => cases second with
    | none => rfl
    | some t =>
        exact Tx.ext rfl (List.modify_modify_ne _ _ tx.inputs h) rfl rfl rfl

end

section

variable [Digests] {tx : Tx} {i j : Nat} {input : TxIn} {key other : PrivateKey}

/-! ## An error leaves the transaction as it was -/

/-- Once there is a signature there is a verdict. -/
theorem exists_verdict_of_unlockingScript {code s : Script} {z : Int} (input : TxIn)
    (hi : i < tx.inputs.length) (hz : tx.digest i code = .ok z)
    (h : key.unlockingScript z = some (.ok s)) :
    ∃ b, tx.verdict i { input with scriptSig := s } code = .ok b := by
  obtain ⟨signature, -, h⟩ := Option.map_eq_some_iff.mp h
  obtain ⟨sig, -, h⟩ := Except.bind_eq_ok_iff.mp h
  obtain ⟨der, -, h⟩ := Except.bind_eq_ok_iff.mp h
  obtain ⟨sec, hsec, h⟩ := Except.bind_eq_ok_iff.mp h
  obtain rfl := Except.ok.inj h
  obtain ⟨hcode, houtputs⟩ := (exists_digest_iff hi).mp ⟨z, hz⟩
  refine (exists_verdict_iff hi).mpr fun redeem hsigning => ⟨?_, houtputs⟩
  rw [TxIn.signing?] at hsigning
  cases hhash : Script.scriptHash? code with
  | none =>
      rw [hhash] at hsigning
      obtain rfl := Option.some.inj hsigning
      exact hcode
  | some hash =>
      -- the redeem script is made of the bytes of the public key
      rw [hhash] at hsigning
      obtain ⟨cmds, hredeem, rfl⟩ := Option.map_eq_some_iff.mp hsigning
      obtain ⟨front, raw, hsplit, hraw⟩ := TxIn.redeemScript?_eq_some_iff.mp hredeem
      have hlast : some (Command.data sec) = some (Command.data raw) :=
        (congrArg List.getLast? hsplit).trans List.getLast?_concat
      obtain rfl := Command.data.inj (Option.some.inj hlast)
      have hlength : sec.length ≤ maxPushSize := by
        rw [Secp256k1.Point.length_of_sec hsec]
        decide
      exact Script.writable_of_ofRaw hraw hlength

/-- When signing fails no script is put in. -/
theorem signing_error {lock : Except Error Script} {e : Error} {put : Option Script}
    (hi : i < tx.inputs.length) (h : tx.signing i input key lock = some (.error e, put)) :
    put = none := by
  rw [signing] at h
  cases hdigest : lock.bind (tx.digest i) with
  | error e =>
      rw [hdigest] at h
      exact (Prod.mk.inj (Option.some.inj h)).2.symm
  | ok z =>
      rw [hdigest] at h
      dsimp only at h
      cases hs : key.unlockingScript z with
      | none =>
          rw [hs] at h
          cases h
      | some unlocking =>
          rw [hs] at h
          cases unlocking with
          | error e => exact (Prod.mk.inj (Option.some.inj h)).2.symm
          | ok s =>
              obtain ⟨code, rfl, hcode⟩ := Except.bind_eq_ok_iff.mp hdigest
              obtain ⟨b, hb⟩ := exists_verdict_of_unlockingScript input hi hcode hs
              cases hb.symm.trans (Prod.mk.inj (Option.some.inj h)).1

/-- A key has a script, or an error, for a number unless the search for a nonce does not end. -/
theorem unlockingScript_eq_none_iff {z : Int} :
    key.unlockingScript z = none ↔ Nonce.find? key.secret z = none :=
  Option.map_eq_none_iff.trans Option.map_eq_none_iff

/-- Signing has a result unless the search for a nonce does not end. -/
theorem signing_eq_none_iff {lock : Except Error Script} :
    tx.signing i input key lock = none ↔
      ∃ z, lock.bind (tx.digest i) = .ok z ∧ Nonce.find? key.secret z = none := by
  rw [signing]
  cases lock.bind (tx.digest i) with
  | error e =>
      refine iff_of_false (Option.some_ne_none _) ?_
      rintro ⟨z, hz, -⟩
      cases hz
  | ok z =>
      simp only [Except.ok.injEq, exists_eq_left', ← @unlockingScript_eq_none_iff _ key]
      cases key.unlockingScript z with
      | none => exact iff_of_true rfl rfl
      | some unlocking => cases unlocking with
        | error e => exact iff_of_false (Option.some_ne_none _) (Option.some_ne_none _)
        | ok s => exact iff_of_false (Option.some_ne_none _) (Option.some_ne_none _)

/-! ## Two inputs -/

variable {σ : Type} {resolve : Resolver (StateM σ)}

omit [Digests] in
/-- A lookup whose answers depend on nothing else finds one locking script, whatever state it is
    in. -/
theorem exists_settles_scriptPubKey (hdet : resolve.Deterministic) (s : σ) (input : TxIn)
    (net : Network) :
    ∃ lock, Runner.state.Settles (fun _ => True) (input.scriptPubKey resolve net).run lock := by
  have hfound : Runner.state.Settles (fun _ => True) (resolve input.spends.txid net).run
      ((resolve input.spends.txid net).run.run s).1 :=
    fun t _ => ⟨((resolve input.spends.txid net).run.run t).2, trivial,
      Prod.ext (hdet _ _ t s) rfl⟩
  exact ⟨_, settles_scriptPubKey (settles_output hfound)⟩

/-- What signing an input does, whatever state the lookup is in: its result with the script that it
    puts in, on every transaction that differs in the scripts of other inputs only. -/
structure SignsAs (resolve : Resolver (StateM σ)) (tx : Tx) (i : Nat) (key : PrivateKey)
    (signed : Option (Except Error Bool × Option Script)) : Prop where
  put_of_error : ∀ {e put}, signed = some (.error e, put) → put = none
  eq_none_iff : ∀ s, signed = none ↔ ∃ z,
    ((tx.sigHash resolve i none).run.run s).1 = .ok z ∧ Nonce.find? key.secret z = none
  settles : ∀ {other : Tx}, tx.SignedAlike other → other.network = tx.network →
    other.inputs[i]? = tx.inputs[i]? → Runner.state.Settles (fun _ => True)
      (other.signInput resolve i key) (signed.map fun r => (r.1, other.putScriptSig i r.2))

/-- With a lookup whose answers depend on nothing else, signing does one thing. -/
theorem exists_signsAs (hdet : resolve.Deterministic) (s : σ) (tx : Tx) (i : Nat)
    (key : PrivateKey) : ∃ signed, SignsAs resolve tx i key signed := by
  cases hinput : tx.inputs[i]? with
  | none =>
      refine ⟨some (.error (.noSuchInput i), none), ⟨?_, fun t => ?_, fun _ _ hother => ?_⟩⟩
      · rintro e put ⟨⟩
        rfl
      · rw [sigHash, hinput]
        refine iff_of_false (Option.some_ne_none _) ?_
        rintro ⟨z, hz, -⟩
        cases hz
      · exact settles_signInput_of_none (hother.trans hinput) key
  | some input =>
      have hi : i < tx.inputs.length := (List.getElem?_eq_some_iff.mp hinput).1
      obtain ⟨lock, hlock⟩ := exists_settles_scriptPubKey hdet s input tx.network
      refine ⟨tx.signing i input key lock, ⟨signing_error hi, fun t => ?_, ?_⟩⟩
      · rw [signing_eq_none_iff, ← (settles_sigHash hinput hlock).fst_run t]
        rfl
      · intro other halike hnet hother
        rw [← hnet] at hlock
        have hsign := settles_signInput (hother.trans hinput) hlock key
        rwa [← signing_congr halike] at hsign

/-- Signing two inputs gives what signing the second gives after the first, and nothing when either
    gives nothing. -/
theorem SignsAs.settles_signBoth {first second : Option (Except Error Bool × Option Script)}
    (hfirst : SignsAs resolve tx i key first) (hsecond : SignsAs resolve tx j other second)
    (hij : i ≠ j) : Runner.state.Settles (fun _ => True) (tx.signBoth resolve i key j other)
      (first.bind fun r => second.map fun q =>
        (r.1, q.1, (tx.putScriptSig i r.2).putScriptSig j q.2)) := by
  refine Runner.Settles.bind (hfirst.settles (.refl tx) rfl rfl) ?_
  cases first with
  | none => exact Runner.settles_pure _
  | some r =>
      -- the second is signed on what the first leaves
      have hleft := hsecond.settles (signedAlike_putScriptSig tx i r.2)
        (network_putScriptSig tx i r.2) (getElem?_putScriptSig_of_ne hij r.2)
      refine Runner.Settles.bind hleft ?_
      cases second with
      | none => exact Runner.settles_pure _
      | some q => exact Runner.settles_pure _

/-- What is signed for an input depends on nothing in the scripts of the others. -/
theorem sigHash_congr {m : Type → Type} [Monad m] {resolve : Resolver m} {u v : Tx}
    (h : u.SignedAlike v) (hnet : u.network = v.network) (hinput : u.inputs[i]? = v.inputs[i]?)
    (redeem : Option Script) : u.sigHash resolve i redeem = v.sigHash resolve i redeem := by
  simp only [sigHash, hinput, hnet, preimage_congr h]

/-- The check of an input looks at the script of that input only. -/
theorem verifyInput_congr {m : Type → Type} [Monad m] {resolve : Resolver m} {u v : Tx}
    (h : u.SignedAlike v) (hnet : u.network = v.network) (hinput : u.inputs[i]? = v.inputs[i]?) :
    u.verifyInput resolve i = v.verifyInput resolve i := by
  have hunlocks : ∀ input lock redeem,
      u.unlocks resolve i input lock redeem = v.unlocks resolve i input lock redeem := by
    intro input lock redeem
    simp only [unlocks, sigHash_congr h hnet hinput, spendContext, h.lockTime, h.version]
  simp only [verifyInput, hinput, hnet, hunlocks]

/-- Two inputs can be signed in either order: the results and the transaction that is left are the
    same, and there are none exactly when one of the two gives none. Signing has a result unless the
    search for a nonce does not end; it puts in at most one script, changes nothing for the check of
    another input, and leaves the transaction as it was when it gives an error. -/
theorem signInput_any_order (hdet : resolve.Deterministic) (hij : i ≠ j) (s t : σ) :
    ((tx.signBoth resolve j other i key).run t).1
        = ((tx.signBoth resolve i key j other).run s).1.map (fun (first, second, left) =>
          (second, first, left)) ∧
      (((tx.signBoth resolve i key j other).run s).1 = none ↔
        ((tx.signInput resolve i key).run s).1 = none ∨
          ((tx.signInput resolve j other).run s).1 = none) ∧
      (((tx.signInput resolve i key).run s).1 = none ↔
        ∃ z, ((tx.sigHash resolve i none).run.run s).1 = .ok z ∧
          Nonce.find? key.secret z = none) ∧
      ∀ result left, ((tx.signInput resolve i key).run s).1 = some (result, left) →
        (left = tx ∨ ∃ script, left = tx.setScriptSig i script) ∧
        (∀ k, k ≠ i → left.verifyInput resolve k = tx.verifyInput resolve k) ∧
        ∀ e, result = .error e → left = tx := by
  obtain ⟨first, hfirst⟩ := exists_signsAs hdet s tx i key
  obtain ⟨second, hsecond⟩ := exists_signsAs hdet s tx j other
  have hi : ((tx.signInput resolve i key).run s).1
      = first.map fun r => (r.1, tx.putScriptSig i r.2) :=
    (hfirst.settles (.refl tx) rfl rfl).fst_run s
  have hj : ((tx.signInput resolve j other).run s).1
      = second.map fun r => (r.1, tx.putScriptSig j r.2) :=
    (hsecond.settles (.refl tx) rfl rfl).fst_run s
  have hboth := (hfirst.settles_signBoth hsecond hij).fst_run s
  have hswapped := (hsecond.settles_signBoth hfirst hij.symm).fst_run t
  refine ⟨?_, ?_, ?_, ?_⟩
  · refine hswapped.trans (Eq.trans ?_ (congrArg _ hboth.symm))
    cases first with
    | none => cases second <;> rfl
    | some r => cases second with
      | none => rfl
      | some q =>
          exact congrArg (fun left => some (q.1, r.1, left)) (putScriptSig_comm hij.symm _ _)
  · rw [hi, hj]
    refine (Eq.congr_left hboth).trans ?_
    rw [Option.bind_eq_none_iff, Option.map_eq_none_iff, Option.map_eq_none_iff]
    cases first with
    | none => exact iff_of_true nofun (.inl rfl)
    | some r => simp only [Option.some.injEq, forall_eq', Option.map_eq_none_iff, reduceCtorEq,
        false_or]
  · rw [hi, Option.map_eq_none_iff]
    exact hfirst.eq_none_iff s
  · intro result left hsigned
    obtain ⟨⟨result, put⟩, hput, hleft⟩ := Option.map_eq_some_iff.mp (hi.symm.trans hsigned)
    obtain ⟨rfl, rfl⟩ := Prod.mk.inj hleft
    refine ⟨?_, ?_, ?_⟩
    · cases put with
      | none => exact .inl rfl
      | some script => exact .inr ⟨script, rfl⟩
    · intro k hk
      exact (verifyInput_congr (signedAlike_putScriptSig tx i put)
        (network_putScriptSig tx i put).symm (getElem?_putScriptSig_of_ne hk.symm put).symm).symm
    · rintro e rfl
      rw [hfirst.put_of_error hput]
      rfl

end

/-- A transaction with two inputs that carry no scripts. -/
def twoSpending : Tx := ⟨1, [spendingInput [], spendingInput []], [], 0, .main⟩

theorem deterministic_lockedResolver (lock : Script) : (lockedResolver lock).Deterministic :=
  fun _ _ _ _ => rfl

/-- Locks every output that is looked up to the key hash of zeros. -/
def zeroKeyResolver : Resolver (StateM Unit) :=
  lockedResolver (Payee.keyHash (FixedBytes.zero 20)).script

/-- Two inputs that are signed with the same key, in both orders. -/
theorem signInput_any_order_two :
    zeroKeyResolver.Deterministic ∧ 0 ≠ 1 ∧
      ((@signBoth _ _ Digests.standard zeroKeyResolver twoSpending 1 .one 0 .one).run ()).1
        = ((@signBoth _ _ Digests.standard zeroKeyResolver twoSpending 0 .one 1 .one).run ()).1.map
          (fun (first, second, left) => (second, first, left)) ∧
      (((@signBoth _ _ Digests.standard zeroKeyResolver twoSpending 0 .one 1 .one).run ()).1
          = none ↔
        ((@signInput _ _ Digests.standard zeroKeyResolver twoSpending 0 .one).run ()).1 = none ∨
          ((@signInput _ _ Digests.standard zeroKeyResolver twoSpending 1 .one).run ()).1 = none) ∧
      (((@signInput _ _ Digests.standard zeroKeyResolver twoSpending 0 .one).run ()).1 = none ↔
        ∃ z, ((@sigHash _ _ Digests.standard zeroKeyResolver twoSpending 0 none).run.run ()).1
            = .ok z ∧
          @Nonce.find? Digests.standard PrivateKey.one.secret z = none) ∧
      ∀ result left,
        ((@signInput _ _ Digests.standard zeroKeyResolver twoSpending 0 .one).run ()).1
          = some (result, left) →
        (left = twoSpending ∨ ∃ script, left = twoSpending.setScriptSig 0 script) ∧
        (∀ k, k ≠ 0 → @verifyInput _ _ Digests.standard zeroKeyResolver left k
          = @verifyInput _ _ Digests.standard zeroKeyResolver twoSpending k) ∧
        ∀ e, result = .error e → left = twoSpending := by
  have hdet : zeroKeyResolver.Deterministic := deterministic_lockedResolver _
  exact ⟨hdet, Nat.zero_ne_one,
    @signInput_any_order Digests.standard twoSpending 0 1 .one .one Unit _ hdet Nat.zero_ne_one
      () ()⟩

end Tx

end Bitcoin
