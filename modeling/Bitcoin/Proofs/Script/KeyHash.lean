import Bitcoin.Proofs.Script.Concatenation

/-!
# Coins locked to a key hash

The script that locks to a key hash copies the top element, compares the digest of the copy with
the hash, and checks a signature under the top element. Every opcode of it takes what it needs from
the top of the stack and fails when that is not there. Read backwards from a true result, this says
what an unlocking script has to leave behind: a public key with the given hash on top, and below it
a signature that holds, whatever is further down and on the other stack.

* **`signatureHolds_eq_true_iff`**: when a signature check is answered with yes.
* **`run_keyHash_eq_ok_iff`**: what the locking script does to any stacks.
* **`execute_keyHash_iff`**: when a coin locked to a key hash can be spent.
-/

namespace Bitcoin

theorem ScriptNumber.isTrue_ofBool (b : Bool) : isTrue (ofBool b) = b := by
  cases b with
  | true => decide +kernel
  | false => decide +kernel

/-! ## What the opcodes demand of the stack -/

/-- A copy of the top element needs an element. -/
theorem StackOp.apply_dup_eq_ok_iff [Digests] {s u : Stack} :
    StackOp.dup.apply s = .ok u ↔ ∃ a r, s = a :: r ∧ u = a :: a :: r := by
  cases s with
  | nil =>
      constructor
      · intro h
        exact nomatch h
      · rintro ⟨a, r, hs, -⟩
        exact nomatch hs
  | cons a r =>
      constructor
      · intro h
        exact ⟨a, r, rfl, (Except.ok.inj h).symm⟩
      · rintro ⟨_, _, hs, rfl⟩
        obtain ⟨rfl, rfl⟩ := List.cons.inj hs
        rfl

/-- A demand that the two elements on top are equal takes both away. -/
theorem StackOp.apply_equalVerify_eq_ok_iff [Digests] {a b : Bytes} {r u : Stack} :
    StackOp.equalVerify.apply (b :: a :: r) = .ok u ↔ a = b ∧ u = r := by
  show (if ScriptNumber.isTrue (ScriptNumber.ofBool (decide (a = b))) then Except.ok r
    else .error r) = .ok u ↔ _
  rw [ScriptNumber.isTrue_ofBool]
  by_cases hab : a = b
  · rw [if_pos (decide_eq_true hab)]
    constructor
    · intro h
      exact ⟨hab, (Except.ok.inj h).symm⟩
    · rintro ⟨-, rfl⟩
      rfl
  · rw [if_neg (ne_true_of_eq_false (decide_eq_false hab))]
    constructor
    · intro h
      exact nomatch h
    · rintro ⟨hsame, -⟩
      exact absurd hsame hab

/-- A signature check puts its answer in place of the key and the signature, and fails where there
    is no signature or no answer. -/
theorem SigOp.apply_check_eq_ok_iff {z : Int} {sec : Bytes} {r u : Stack} :
    SigOp.check.apply z (sec :: r) = .ok u ↔ ∃ signature t holds, r = signature :: t ∧
      signatureHolds sec signature z = .ok holds ∧ u = ScriptNumber.ofBool holds :: t := by
  cases r with
  | nil =>
      constructor
      · intro h
        exact nomatch h
      · rintro ⟨_, _, _, hr, -⟩
        exact nomatch hr
  | cons signature t =>
      rw [SigOp.apply, Stack.checkSig]
      constructor
      · intro h
        cases hholds : signatureHolds sec signature z with
        | error e =>
            rw [hholds] at h
            exact nomatch h
        | ok holds =>
            rw [hholds] at h
            exact ⟨signature, t, holds, rfl, hholds, (Except.ok.inj h).symm⟩
      · rintro ⟨_, _, holds, hr, hholds, rfl⟩
        obtain ⟨rfl, rfl⟩ := List.cons.inj hr
        rw [hholds]

/-- A signature check is answered with yes when the public key and the signature without its last
    byte can be read and the one verifies under the other. -/
theorem signatureHolds_eq_true_iff {sec signature : Bytes} {z : Int} :
    signatureHolds sec signature z = .ok true ↔ ∃ key sig,
      Secp256k1.Point.ofSec sec = .ok key ∧ Signature.ofDer signature.dropLast = .ok sig ∧
        sig.verifies key z = true := by
  rw [signatureHolds]
  constructor
  · intro h
    obtain ⟨key, hkey, h⟩ := Except.bind_eq_ok_iff.mp h
    obtain ⟨sig, hsig, h⟩ := Except.bind_eq_ok_iff.mp h
    exact ⟨key, sig, hkey, hsig, Except.ok.inj h⟩
  · rintro ⟨key, sig, hkey, hsig, hverifies⟩
    refine Except.bind_eq_ok_iff.mpr ⟨key, hkey, ?_⟩
    refine Except.bind_eq_ok_iff.mpr ⟨sig, hsig, ?_⟩
    exact congrArg Except.ok hverifies

/-! ## The locking script -/

namespace Machine

variable [Digests]

/-- The script that locks to a key hash leaves the answer to a signature check by a key with that
    hash, and fails on any other stack. -/
theorem run_keyHash_eq_ok_iff {mode : Redemption} {ctx : SpendContext} {s alt : Stack}
    {h : Hash160} {t : Machine} :
    run mode ctx ⟨s, alt, (Payee.keyHash h).script⟩ = .ok t ↔ ∃ sec signature r holds,
      s = sec :: signature :: r ∧ Digests.hash160 sec = h ∧
        signatureHolds sec signature ctx.z = .ok holds ∧
          t = ⟨ScriptNumber.ofBool holds :: r, alt, []⟩ := by
  have hdup : Operation.ofCode? Opcode.dup = some (.stack .dup) := by decide
  have hhash : Operation.ofCode? Opcode.hash160 = some (.stack (.hash .hash160)) := by decide
  have hequal : Operation.ofCode? Opcode.equalVerify = some (.stack .equalVerify) := by decide
  have hcheck : Operation.ofCode? Opcode.checkSig = some (.sig .check) := by decide
  have hdata : Script.scriptHash? [.op Opcode.equalVerify, .op Opcode.checkSig] = none := rfl
  rw [Payee.script]
  constructor
  · intro hrun
    obtain ⟨_, hcopied, hrun₁⟩ := (run_stackOp_eq_ok_iff hdup).mp hrun
    obtain ⟨sec, r, rfl, rfl⟩ := StackOp.apply_dup_eq_ok_iff.mp hcopied
    -- the copy is there, so the digest cannot fail
    obtain ⟨_, hhashed, hrun₂⟩ := (run_stackOp_eq_ok_iff hhash).mp hrun₁
    obtain rfl := Except.ok.inj hhashed
    rw [run_data hdata] at hrun₂
    obtain ⟨_, hcompared, hrun₃⟩ := (run_stackOp_eq_ok_iff hequal).mp hrun₂
    obtain ⟨hsame, rfl⟩ := StackOp.apply_equalVerify_eq_ok_iff.mp hcompared
    obtain ⟨_, hchecked, hrun₄⟩ := (run_sigOp_eq_ok_iff hcheck).mp hrun₃
    obtain ⟨signature, t', holds, rfl, hholds, rfl⟩ := SigOp.apply_check_eq_ok_iff.mp hchecked
    rw [run_nil] at hrun₄
    exact ⟨sec, signature, t', holds, rfl, FixedBytes.ext hsame, hholds,
      (Except.ok.inj hrun₄).symm⟩
  · rintro ⟨sec, signature, r, holds, rfl, rfl, hholds, rfl⟩
    refine (run_stackOp_eq_ok_iff hdup).mpr ⟨_, rfl, ?_⟩
    refine (run_stackOp_eq_ok_iff hhash).mpr ⟨_, rfl, ?_⟩
    rw [run_data hdata]
    refine (run_stackOp_eq_ok_iff hequal).mpr
      ⟨_, StackOp.apply_equalVerify_eq_ok_iff.mpr ⟨rfl, rfl⟩, ?_⟩
    refine (run_sigOp_eq_ok_iff hcheck).mpr
      ⟨_, SigOp.apply_check_eq_ok_iff.mpr ⟨_, _, holds, rfl, hholds, rfl⟩, ?_⟩
    exact run_nil mode ctx _ alt

/-- The script that locks to a key hash succeeds when the answer is yes. -/
theorem execute_keyHash_eq_ok_iff {ctx : SpendContext} {s alt : Stack} {h : Hash160} :
    execute ctx ⟨s, alt, (Payee.keyHash h).script⟩ = .ok () ↔ ∃ sec signature r,
      s = sec :: signature :: r ∧ Digests.hash160 sec = h ∧
        signatureHolds sec signature ctx.z = .ok true := by
  rw [execute_eq_ok_iff]
  constructor
  · rintro ⟨top, r, alt', hrun, htop⟩
    obtain ⟨sec, signature, _, holds, hs, hhash, hholds, ht⟩ := run_keyHash_eq_ok_iff.mp hrun
    obtain ⟨htop', -⟩ := List.cons.inj (congrArg Machine.stack ht)
    rw [htop', ScriptNumber.isTrue_ofBool] at htop
    rw [htop] at hholds
    exact ⟨sec, signature, _, hs, hhash, hholds⟩
  · rintro ⟨sec, signature, r, hs, hhash, hholds⟩
    refine ⟨_, r, alt,
      run_keyHash_eq_ok_iff.mpr ⟨sec, signature, r, true, hs, hhash, hholds, rfl⟩, ?_⟩
    exact ScriptNumber.isTrue_ofBool true

end Machine

namespace Script

/-- A script that locks to the hash of a key has no conditionals. -/
theorem balanced_keyHash (h : Hash160) : Balanced (Payee.keyHash h).script := rfl

/-- A coin locked to a key hash can be spent exactly by a script that runs alone to its end and
    leaves a public key with that hash on top and a signature under it that verifies. -/
theorem execute_keyHash_iff [Digests] (ctx : SpendContext) (a : Script) (h : Hash160) :
    (a ++ (Payee.keyHash h).script).execute ctx = .ok () ↔ ∃ r signature sec alt,
      (Machine.start a).run .off ctx = .ok ⟨sec :: signature :: r, alt, []⟩ ∧
        Digests.hash160 sec = h ∧ ∃ key sig,
          Secp256k1.Point.ofSec sec = .ok key ∧ Signature.ofDer signature.dropLast = .ok sig ∧
            sig.verifies key ctx.z = true := by
  have hlong : 3 < (Payee.keyHash h).script.length := by
    show 3 < 5
    decide
  have happend := Machine.execute_append_eq_ok_iff (balanced_keyHash h)
    (not_suffix_scriptHash hlong) ctx (Machine.start a)
  refine happend.trans ?_
  constructor
  · rintro ⟨s, alt, hrun, hexec⟩
    obtain ⟨sec, signature, r, rfl, hhash, hholds⟩ := Machine.execute_keyHash_eq_ok_iff.mp hexec
    exact ⟨r, signature, sec, alt, hrun, hhash, signatureHolds_eq_true_iff.mp hholds⟩
  · rintro ⟨r, signature, sec, alt, hrun, hhash, hkey⟩
    refine ⟨_, alt, hrun, Machine.execute_keyHash_eq_ok_iff.mpr ?_⟩
    exact ⟨sec, signature, r, rfl, hhash, signatureHolds_eq_true_iff.mpr hkey⟩

end Script

end Bitcoin
