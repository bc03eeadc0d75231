import Bitcoin.Proofs.Wire.RoundTrip
import Bitcoin.Transaction.Spending

/-!
# What a signature commits to

The bytes that are signed for an input are those of a transaction, with the kind of signature behind
them: every input script is blank but the one of that input, which is the script that the input has
to satisfy. A transaction is known from its bytes, so the signed bytes fix the version, the lock
time, what every input spends and with which sequence number, every output, the script, and the
place of the input, unless the script is empty and so no place shows it. The scripts that the inputs
carry themselves play no part.

* **`preimage_eq_bytes`**: the signed bytes are those of `signedForm`.
* **`exists_preimage_iff`**: they exist unless a push in the outputs or in the script is too long.
* **`preimage_congr`**: they do not depend on what the inputs carry.
* **`preimage_binds`**: what they fix.
-/

namespace Bitcoin

/-- What an input spends, with its sequence number. -/
def TxIn.spending (input : TxIn) : Outpoint × UInt32 := (input.spends, input.sequence)

namespace Tx

/-- The transaction that is signed for an input: the input carries the script that it has to
    satisfy, and no other input carries a script. -/
def signedForm (tx : Tx) (index : Nat) (code : Script) : Tx :=
  { tx with
    inputs := tx.inputs.mapIdx fun i input =>
      { input with scriptSig := if i = index then code else [] } }

/-- Two transactions that differ in no more than the scripts of their inputs and the network. -/
structure SignedAlike (tx other : Tx) : Prop where
  version : tx.version = other.version
  inputs : tx.inputs.map TxIn.spending = other.inputs.map TxIn.spending
  outputs : tx.outputs = other.outputs
  lockTime : tx.lockTime = other.lockTime

variable {tx other : Tx} {i j : Nat} {code otherCode : Script}

/-- The signed form has the code in the input that is signed, and empty scripts in the others. -/
theorem getElem?_signedForm (tx : Tx) (i j : Nat) (code : Script) :
    (tx.signedForm i code).inputs[j]? = tx.inputs[j]?.map fun input =>
      { input with scriptSig := if j = i then code else [] } :=
  List.getElem?_mapIdx

theorem map_spending_signedForm (tx : Tx) (i : Nat) (code : Script) :
    (tx.signedForm i code).inputs.map TxIn.spending = tx.inputs.map TxIn.spending := by
  refine List.ext_getElem? fun j => ?_
  rw [List.getElem?_map, List.getElem?_map, getElem?_signedForm, Option.map_map]
  rfl

/-- The signed bytes are those of the transaction that is signed, and the kind of signature. -/
theorem preimage_eq_bytes (tx : Tx) (i : Nat) (code : Script) :
    tx.preimage i code = (tx.signedForm i code).bytes.map (· ++ leFixed 4 sigHashAll) := by
  have hpreimage : tx.preimage i code = (do
      let inputs ← (tx.signedForm i code).inputs.mapM TxIn.bytes
      return tx.headBytes inputs ++ (← tx.tailBytes) ++ leFixed 4 sigHashAll) := by
    rw [preimage, signedForm, List.mapIdx_eq_zipIdx_map, List.mapM_map]
    rfl
  have htail : (tx.signedForm i code).tailBytes = tx.tailBytes := rfl
  rw [hpreimage, bytes, htail]
  cases (tx.signedForm i code).inputs.mapM TxIn.bytes with
  | error e => rfl
  | ok inputs =>
      cases tx.tailBytes with
      | error e => rfl
      | ok tail => rfl

/-- What holds of a blank script holds of all that are signed when it does of the script that the
    input has to satisfy and of those of the outputs. -/
theorem forall_scripts_signedForm_iff {P : Script → Prop} (hnil : P []) :
    (∀ s ∈ (tx.signedForm i code).scripts, P s) ↔
      (i < tx.inputs.length → P code) ∧ ∀ output ∈ tx.outputs, P output.scriptPubKey := by
  rw [scripts, List.forall_mem_append, List.forall_mem_map, List.forall_mem_map]
  refine and_congr_left fun _ => ?_
  constructor
  · intro h hi
    have hsigned := List.getElem?_eq_getElem hi
    have hmem : { tx.inputs[i] with scriptSig := code } ∈ (tx.signedForm i code).inputs := by
      refine List.mem_of_getElem? (i := i) ?_
      rw [getElem?_signedForm, hsigned, Option.map_some, if_pos rfl]
    exact h _ hmem
  · intro h input hinput
    obtain ⟨j, hj, rfl⟩ := List.mem_mapIdx.mp hinput
    show P (if j = i then code else [])
    by_cases hij : j = i
    · rw [if_pos hij]
      exact h (hij ▸ hj)
    · rw [if_neg hij]
      exact hnil

/-! ## Whether there is something to sign -/

/-- The signed bytes exist unless a push in the outputs or in the script is too long. -/
theorem exists_preimage_iff : (∃ bs, tx.preimage i code = .ok bs) ↔
    (i < tx.inputs.length → code.Writable) ∧
      ∀ output ∈ tx.outputs, output.scriptPubKey.Writable := by
  have hnil : Script.Writable [] := fun c hc => nomatch hc
  rw [← forall_scripts_signedForm_iff hnil, ← exists_bytes_iff, preimage_eq_bytes]
  constructor
  · rintro ⟨bs, h⟩
    obtain ⟨front, hfront, -⟩ := Except.map_eq_ok_iff.mp h
    exact ⟨front, hfront⟩
  · rintro ⟨front, hfront⟩
    exact ⟨_, Except.map_eq_ok_iff.mpr ⟨front, hfront, rfl⟩⟩

/-! ## What the signed bytes depend on -/

theorem SignedAlike.refl (tx : Tx) : tx.SignedAlike tx := ⟨rfl, rfl, rfl, rfl⟩

/-- The script goes into the input that it is set for. -/
theorem getElem?_setScriptSig {input : TxIn} (hinput : tx.inputs[i]? = some input) (s : Script) :
    (tx.setScriptSig i s).inputs[i]? = some { input with scriptSig := s } := by
  rw [setScriptSig, List.getElem?_modify_eq, hinput]
  rfl

/-- The other inputs stay as they are. -/
theorem getElem?_setScriptSig_of_ne (h : i ≠ j) (s : Script) :
    (tx.setScriptSig i s).inputs[j]? = tx.inputs[j]? :=
  List.getElem?_modify_ne _ _ h

/-- Another script in one input is no difference. -/
theorem signedAlike_setScriptSig (tx : Tx) (i : Nat) (s : Script) :
    tx.SignedAlike (tx.setScriptSig i s) where
  version := rfl
  inputs := by
    refine List.ext_getElem? fun j => ?_
    rw [List.getElem?_map, List.getElem?_map, setScriptSig, List.getElem?_modify]
    cases tx.inputs[j]? with
    | none => rfl
    | some input =>
        by_cases hij : i = j
        · simp only [if_pos hij]
          rfl
        · simp only [if_neg hij]
          rfl
  outputs := rfl
  lockTime := rfl

theorem SignedAlike.length_inputs (h : tx.SignedAlike other) :
    tx.inputs.length = other.inputs.length := by
  have hlength := congrArg List.length h.inputs
  rwa [List.length_map, List.length_map] at hlength

/-- Transactions that differ in no more than their own input scripts sign the same transaction. -/
theorem SignedAlike.signedForm_eq (h : tx.SignedAlike other) (i : Nat) (code : Script) :
    other.signedForm i code = { tx.signedForm i code with network := other.network } := by
  have hinputs : (other.signedForm i code).inputs = (tx.signedForm i code).inputs := by
    refine List.ext_getElem? fun j => ?_
    have hspending : other.inputs[j]?.map TxIn.spending = tx.inputs[j]?.map TxIn.spending := by
      rw [← List.getElem?_map, ← List.getElem?_map, h.inputs]
    have hmake := congrArg
      (Option.map fun p => (⟨p.1, if j = i then code else [], p.2⟩ : TxIn)) hspending
    rw [Option.map_map, Option.map_map] at hmake
    rw [getElem?_signedForm, getElem?_signedForm]
    exact hmake
  exact Tx.ext h.version.symm hinputs h.outputs.symm h.lockTime.symm rfl

/-- The signed bytes do not depend on the scripts that the inputs carry. -/
theorem preimage_congr (h : tx.SignedAlike other) (i : Nat) (code : Script) :
    tx.preimage i code = other.preimage i code := by
  rw [preimage_eq_bytes, preimage_eq_bytes, h.signedForm_eq]
  rfl

/-! ## What the signed bytes fix -/

/-- A script for an input that can be signed and read back: the input is there, every command of the
    outputs and of the script is read back as it is written, and all counts and lengths fit. -/
structure Signable (tx : Tx) (index : Nat) (code : Script) : Prop where
  index_lt : index < tx.inputs.length
  outputs : ∀ output ∈ tx.outputs, output.scriptPubKey.Canonical
  script : code.Canonical
  fits : (tx.signedForm index code).CountsFit

/-- The scripts of the signed form are the code and those of the outputs. -/
theorem Signable.canonical (h : tx.Signable i code) : (tx.signedForm i code).Canonical := by
  have hnil : Script.Canonical [] := fun c hc => nomatch hc
  exact (forall_scripts_signedForm_iff hnil).mpr ⟨fun _ => h.script, h.outputs⟩

/-- What can be signed can be written. -/
theorem Signable.exists_preimage (h : tx.Signable i code) :
    ∃ bs, tx.preimage i code = .ok bs :=
  exists_preimage_iff.mpr
    ⟨fun _ => h.script.writable, fun output ho => (h.outputs output ho).writable⟩

/-- Transactions that sign the same one differ in no more than their own input scripts. -/
theorem signedAlike_of_signedForm_eq {net : Network}
    (h : other.signedForm j otherCode = { tx.signedForm i code with network := net }) :
    tx.SignedAlike other where
  version := (congrArg Tx.version h).symm
  inputs := by
    rw [← map_spending_signedForm tx i code, ← map_spending_signedForm other j otherCode, h]
  outputs := (congrArg Tx.outputs h).symm
  lockTime := (congrArg Tx.lockTime h).symm

/-- The script of an input in the transaction that is signed. -/
theorem scriptSig_signedForm (hi : i < tx.inputs.length) (j : Nat) (code : Script) :
    (tx.signedForm j code).inputs[i]?.map TxIn.scriptSig = some (if i = j then code else []) := by
  rw [getElem?_signedForm, List.getElem?_eq_getElem hi]
  rfl

/-- Without a script nothing shows which input is signed. -/
theorem signedForm_nil (tx : Tx) (i j : Nat) : tx.signedForm i [] = tx.signedForm j [] := by
  simp only [signedForm, ite_self]

/-- Equal signed bytes are those of equal transactions. -/
theorem bytes_eq_of_preimage_eq (h : ∃ bs, tx.preimage i code = .ok bs)
    (heq : tx.preimage i code = other.preimage j otherCode) :
    (tx.signedForm i code).bytes = (other.signedForm j otherCode).bytes := by
  obtain ⟨bs, hbs⟩ := h
  rw [hbs] at heq
  rw [preimage_eq_bytes] at hbs heq
  obtain ⟨front, hfront, hsigned⟩ := Except.map_eq_ok_iff.mp hbs
  obtain ⟨front', hfront', hsigned'⟩ := Except.map_eq_ok_iff.mp heq.symm
  have hsame : front = front' := List.append_cancel_right (hsigned.trans hsigned'.symm)
  rw [hfront, hfront', hsame]

/-- The signed bytes fix the version, the lock time, what the inputs spend and their sequence
    numbers, the outputs, the script that the input has to satisfy, and which input that is, unless
    the script is empty. They do not depend on the scripts that any inputs carry. -/
theorem preimage_binds (h : tx.Signable i code) (hother : other.Signable j otherCode) :
    (∃ bs, tx.preimage i code = .ok bs) ∧
      (tx.preimage i code = other.preimage j otherCode ↔
        tx.SignedAlike other ∧ code = otherCode ∧ (code = [] ∨ i = j)) ∧
      ∀ u v : Tx, u.SignedAlike v → ∀ (k : Nat) (s : Script), u.preimage k s = v.preimage k s := by
  refine ⟨h.exists_preimage, ⟨?_, ?_⟩, fun u v huv k s => preimage_congr huv k s⟩
  · intro heq
    have hbytes := bytes_eq_of_preimage_eq h.exists_preimage heq
    have hform := h.canonical.eq_of_bytes_eq h.fits hother.canonical hother.fits hbytes
    have halike := signedAlike_of_signedForm_eq hform
    have hlength := halike.length_inputs
    have hscript : ∀ k, k < tx.inputs.length →
        (if k = j then otherCode else []) = if k = i then code else [] := by
      intro k hk
      have hsame := congrArg (fun t => t.inputs[k]?.map TxIn.scriptSig) hform
      dsimp only at hsame
      rw [scriptSig_signedForm (hlength ▸ hk), scriptSig_signedForm hk] at hsame
      exact Option.some.inj hsame
    -- the places of the two inputs show both scripts
    have hi := hscript i h.index_lt
    have hj := hscript j (hlength ▸ hother.index_lt)
    rw [if_pos rfl] at hi hj
    by_cases hij : i = j
    · rw [if_pos hij] at hi
      exact ⟨halike, hi.symm, .inr hij⟩
    · rw [if_neg hij] at hi
      rw [if_neg (Ne.symm hij)] at hj
      exact ⟨halike, hi.symm.trans hj.symm, .inl hi.symm⟩
  · rintro ⟨halike, rfl, hplace⟩
    rw [preimage_congr halike]
    rcases hplace with rfl | rfl
    · rw [preimage_eq_bytes, preimage_eq_bytes, signedForm_nil other i j]
    · rfl

/-- A small transaction without its input script and with another lock time. -/
def laterTx : Tx := { smallTx.setScriptSig 0 [] with lockTime := 7 }

theorem countsFit_signedForm_smallTx : (smallTx.signedForm 0 [.op Opcode.pushOne]).CountsFit := by
  refine ⟨by decide, by decide, ?_⟩
  intro s hs bs hbs
  have hone : s = [.op Opcode.pushOne] := by
    rcases List.mem_cons.mp hs with rfl | hs
    · rfl
    · exact List.mem_singleton.mp hs
  subst hone
  obtain rfl := Except.ok.inj hbs
  decide

/-- Two transactions that differ in a script, which is not signed, and in the lock time, which is.
    -/
theorem preimage_binds_small :
    smallTx.Signable 0 [.op Opcode.pushOne] ∧ laterTx.Signable 0 [.op Opcode.pushOne] ∧
      (∃ bs, smallTx.preimage 0 [.op Opcode.pushOne] = .ok bs) ∧
      (smallTx.preimage 0 [.op Opcode.pushOne] = laterTx.preimage 0 [.op Opcode.pushOne] ↔
        smallTx.SignedAlike laterTx ∧ ([.op Opcode.pushOne] : Script) = [.op Opcode.pushOne] ∧
          (([.op Opcode.pushOne] : Script) = [] ∨ 0 = 0)) ∧
      ∀ u v : Tx, u.SignedAlike v → ∀ (k : Nat) (s : Script),
        u.preimage k s = v.preimage k s := by
  have h : smallTx.Signable 0 [.op Opcode.pushOne] :=
    ⟨by decide, by decide, by decide, countsFit_signedForm_smallTx⟩
  have hlater : laterTx.Signable 0 [.op Opcode.pushOne] :=
    ⟨by decide, by decide, by decide,
      ⟨countsFit_signedForm_smallTx.inputs, countsFit_signedForm_smallTx.outputs,
        countsFit_signedForm_smallTx.scripts⟩⟩
  exact ⟨h, hlater, preimage_binds h hlater⟩

end Tx

end Bitcoin
