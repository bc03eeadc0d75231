import Bitcoin.Proofs.Key.Der
import Bitcoin.Proofs.Key.Sec
import Bitcoin.Proofs.Key.Signing
import Bitcoin.Proofs.Script.KeyHash

/-!
# What is signed passes a signature check

A signature check gets a public key and a signature as bytes. A key can always be written in the
short form, and a signature with its numbers below the order can always be written; both are read
back as they were, so the check answers yes. That the first number is not zero needs no condition:
a point with zero for its first coordinate would have a root of seven for its second, and seven is
no square.

* **`Secp256k1.x?_ofGroup_pos`**: the first coordinate of a point is not zero.
* **`PrivateKey.sign_spec`**: what is known of a signature that a key makes.
* **`PrivateKey.exists_signatureHolds`**: the check of both byte forms.
-/

namespace Bitcoin

namespace Secp256k1

open WeierstrassCurve Bitcoin.Curve

/-- Seven is no square: its power with exponent `(p - 1) / 2` is not one. -/
theorem sq_ne_seven (y : ZMod fieldPrime) : y ^ 2 ≠ 7 := by
  intro h
  have hcheck : 7 % fieldPrime ≠ 0 ∧ 2 * ((fieldPrime - 1) / 2) = fieldPrime - 1 ∧
      powMod fieldPrime 7 ((fieldPrime - 1) / 2) ≠ 1 % fieldPrime := by
    decide +kernel
  have hsq : y ^ 2 = ((7 : ℕ) : ZMod fieldPrime) := h.trans (Nat.cast_ofNat).symm
  have hy : y ≠ 0 := by
    rintro rfl
    rw [zero_pow two_ne_zero, eq_comm, ZMod.natCast_eq_zero_iff] at hsq
    exact hcheck.1 (Nat.mod_eq_zero_of_dvd hsq)
  refine hcheck.2.2 ((LucasStep.powMod_eq_one_iff _ _ _).mpr ?_)
  rw [← hsq, ← pow_mul, hcheck.2.1]
  exact ZMod.pow_card_sub_one_eq_one hy

/-- The first coordinate of a point is a positive number below the modulus. -/
theorem x?_ofGroup_pos {P : Group} {r : ℤ} (h : (Point.ofGroup P).x? = some r) :
    1 ≤ r ∧ r < fieldPrime := by
  cases P with
  | zero => exact nomatch h
  | some x y hxy =>
      obtain rfl : (Residue.ofZMod x).num = r := Option.some.inj h
      have hx : x ≠ 0 := by
        rintro rfl
        have heq := equation_seven hxy
        rw [zero_pow three_ne_zero, zero_add] at heq
        exact sq_ne_seven y heq
      have hval : x.val ≠ 0 := (ZMod.val_ne_zero x).mpr hx
      have hlt := x.val_lt
      rw [Residue.num_ofZMod]
      omega

end Secp256k1

namespace PrivateKey

open Secp256k1

/-- The public point of a key is a multiple of the generator, and not infinity. -/
theorem publicKey_eq_ofGroup (key : PrivateKey) :
    key.publicKey = Point.ofGroup (key.secret • base) ∧ key.secret • base ≠ 0 := by
  have hrange := key.secret_range
  constructor
  · exact Except.ok.inj (key.publicKey_eq.symm.trans (Point.mul_generator key.secret))
  · rw [Ne, zsmul_base_eq_zero_iff, ZMod.intCast_zmod_eq_zero_iff_dvd]
    intro hdvd
    have := Int.le_of_dvd (by omega) hdvd
    omega

/-- A signature that a key makes has its numbers in range up to two exceptions, and without these
    it verifies. -/
theorem sign_spec [Digests] {key : PrivateKey} {z : ℤ} {sig : Signature}
    (h : key.sign z = some (.ok sig)) :
    (1 ≤ sig.r ∧ sig.r < fieldPrime) ∧ (0 ≤ sig.s ∧ sig.s < order) ∧
      (sig.r < order → sig.s ≠ 0 → sig.verifies key.publicKey z = true) := by
  obtain ⟨nonce, hnonce, hmade⟩ := Option.map_eq_some_iff.mp h
  have hk := Nonce.search_range hnonce
  obtain ⟨r, hx, hsig⟩ := exists_signWith key.secret hk z
  obtain rfl := Except.ok.inj (hsig.symm.trans hmade)
  have hr := x?_ofGroup_pos hx
  have hraw := rawS_range key.secret nonce z r
  have hlow := lowS_range hraw
  refine ⟨hr, ⟨hlow.1, hlow.2.trans_lt (by omega)⟩, fun hr' hs => ?_⟩
  rw [(publicKey_eq_ofGroup key).1]
  exact (verifies_signed_iff hk hx).mpr ⟨⟨hr.1, hr'⟩, hs⟩

/-- A key and a signature that it makes can be written, and the check of both byte forms, with any
    byte behind the signature, answers yes. -/
theorem exists_signatureHolds [Digests] {key : PrivateKey} {z : ℤ} {sig : Signature}
    (h : key.sign z = some (.ok sig)) (hr : sig.r < order) (hs : sig.s ≠ 0) :
    ∃ der sec, sig.der = .ok der ∧ key.publicKey.sec true = .ok sec ∧
      ∀ b, signatureHolds sec (der ++ [b]) z = .ok true := by
  have hlimit : (order : ℤ) ≤ 2 ^ 256 := by decide +kernel
  obtain ⟨hpos, hrange, hverifies⟩ := sign_spec h
  obtain ⟨hpublic, hne⟩ := publicKey_eq_ofGroup key
  obtain ⟨der, hder, hofDer⟩ : ∃ bs, sig.der = .ok bs ∧ Signature.ofDer bs = .ok sig :=
    Signature.exists_der_iff.mpr ⟨by omega, by omega⟩
  obtain ⟨sec, hsec, hofSec⟩ := Point.exists_sec hne
  rw [← hpublic] at hsec hofSec
  refine ⟨der, sec, hder, hsec, fun b => ?_⟩
  refine signatureHolds_eq_true_iff.mpr ⟨key.publicKey, sig, hofSec, ?_, hverifies hr hs⟩
  rw [List.dropLast_concat]
  exact hofDer

end PrivateKey

end Bitcoin
