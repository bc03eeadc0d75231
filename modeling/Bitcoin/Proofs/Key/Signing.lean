import Bitcoin.Key.Private
import Bitcoin.Proofs.Key.Points

/-!
# What is signed verifies

Verification recovers the point `(z / s) G + (r / s) Q`. For `Q = d G` and `s = ± (z + r d) / k`
that is `± k G`, whose first coordinate does not depend on the sign; so a signature made with the
nonce `k` verifies, whichever of the two values of `s` it carries, unless one of its numbers is out
of range. That leaves two exceptions: `s` is zero, or `r`, which is reduced modulo the field prime
only, is zero or not below the order.

* **`verifies_ofGroup_iff`**: verification looks at the recovered point of the group.
* **`verifies_of_cast_eq_or`**: numbers `s` that agree up to sign are accepted alike.
* **`verifies_lowS`**: the smaller value of `s` verifies when the other does.
* **`verifies_signed_iff`**: a signature made with a nonce verifies unless it is out of range.
* **`sign_verifies_iff`**: the round trip from a secret to the verdict.
-/

namespace Bitcoin

open Secp256k1

namespace Signature

/-- The scalar that stands for `1 / s`. -/
def inverse (sig : Signature) : ℤ := scalarInverse sig.s.toNat

/-- The power with exponent two below the order is the inverse modulo the order. -/
theorem cast_inverse {sig : Signature} (hs : 0 ≤ sig.s) :
    (sig.inverse : ZMod order) = (sig.s : ZMod order)⁻¹ := by
  have hnat : ((sig.s.toNat : ℤ) : ZMod order) = (sig.s : ZMod order) := by
    rw [Int.toNat_of_nonneg hs]
  rw [inverse, Int.cast_natCast, cast_scalarInverse, ← hnat, Int.cast_natCast]

/-- Both numbers are from one up to the order. -/
theorem inRange_iff {sig : Signature} :
    sig.inRange = true ↔ (1 ≤ sig.r ∧ sig.r < order) ∧ 1 ≤ sig.s ∧ sig.s < order := by
  rw [inRange, decide_eq_true_iff, and_assoc]

/-- The recovered point, as a point of the group. -/
theorem recovered_ofGroup {Q : Group} (hQ : order • Q = 0) (z : ℤ) (sig : Signature) :
    recovered (Point.ofGroup Q) z sig
      = .ok (Point.ofGroup ((z * sig.inverse) • base + (sig.r * sig.inverse) • Q)) := by
  show (generator.mul (z * sig.inverse) >>= fun byGenerator =>
    (Point.ofGroup Q).mul (sig.r * sig.inverse) >>= fun byKey => byGenerator.add byKey) = _
  rw [Point.mul_generator, Point.mul_ofGroup hQ]
  exact Point.add_ofGroup _ _

/-- Verification looks at the recovered point of the group. -/
theorem verifies_ofGroup_iff {Q : Group} (hQ : order • Q = 0) {z : ℤ} {sig : Signature} :
    sig.verifies (Point.ofGroup Q) z = true ↔ sig.inRange = true ∧
      (Point.ofGroup ((z * sig.inverse) • base + (sig.r * sig.inverse) • Q)).x? = some sig.r := by
  rw [verifies, recovered_ofGroup hQ, Bool.and_eq_true]
  exact and_congr_right fun _ => decide_eq_true_iff

/-! ## Numbers `s` that agree up to sign -/

/-- What is left of the order is the opposite, modulo the order. -/
theorem cast_order_sub (s : ℤ) : ((order - s : ℤ) : ZMod order) = -(s : ZMod order) := by
  rw [Int.cast_sub, Int.cast_natCast, ZMod.natCast_self, zero_sub]

/-- The point `z G + r Q`, which is `s` times the recovered one. -/
def scaledPoint (Q : Group) (z r : ℤ) : Group := z • base + r • Q

/-- The order annihilates the point that is compared with `r` when it annihilates the public key. -/
theorem order_smul_scaledPoint {Q : Group} (hQ : order • Q = 0) (z r : ℤ) :
    order • scaledPoint Q z r = 0 := by
  rw [scaledPoint, nsmul_add, order_smul_zsmul_base, smul_comm, hQ, zsmul_zero, add_zero]

/-- The recovered point is the multiple of `z G + r Q` with the scalar that stands for `1 / s`. -/
theorem recovered_eq_smul (Q : Group) (z r k : ℤ) :
    (z * k) • base + (r * k) • Q = k • scaledPoint Q z r := by
  rw [scaledPoint, zsmul_add, mul_zsmul', mul_zsmul']

/-- A signature that is accepted stays so when `s` is replaced by another number in range that agrees
    with it up to sign: the recovered point keeps its sign or changes it, and its first coordinate
    does not depend on the sign. -/
theorem verifies_of_cast_eq_or {Q : Group} (hQ : order • Q = 0) {z r s t : ℤ}
    (ht : 1 ≤ t ∧ t < order) (hcast : (t : ZMod order) = s ∨ (t : ZMod order) = -(s : ZMod order))
    (h : (⟨r, s⟩ : Signature).verifies (Point.ofGroup Q) z = true) :
    (⟨r, t⟩ : Signature).verifies (Point.ofGroup Q) z = true := by
  rw [verifies_ofGroup_iff hQ, inRange_iff] at h ⊢
  dsimp only at h ⊢
  obtain ⟨⟨hr, hs⟩, hx⟩ := h
  have hT := order_smul_scaledPoint hQ z r
  have hinv : ((⟨r, s⟩ : Signature).inverse : ZMod order) = (s : ZMod order)⁻¹ :=
    cast_inverse (Int.le_of_lt hs.1)
  have hinvt : ((⟨r, t⟩ : Signature).inverse : ZMod order) = (t : ZMod order)⁻¹ :=
    cast_inverse (Int.le_of_lt ht.1)
  refine ⟨⟨hr, ht⟩, ?_⟩
  rw [← hx, recovered_eq_smul, recovered_eq_smul]
  rcases hcast with hsame | hneg
  · have hscalar : ((⟨r, t⟩ : Signature).inverse : ZMod order)
        = ((⟨r, s⟩ : Signature).inverse : ZMod order) := by
      rw [hinvt, hinv, hsame]
    rw [zsmul_congr hT hscalar]
  · have hscalar : ((⟨r, t⟩ : Signature).inverse : ZMod order)
        = ((-(⟨r, s⟩ : Signature).inverse : ℤ) : ZMod order) := by
      rw [Int.cast_neg, hinvt, hinv, hneg, inv_neg]
    rw [zsmul_congr hT hscalar, neg_zsmul, Point.x?_ofGroup_neg]

end Signature

namespace PrivateKey

open Signature

/-! ## The smaller value of `s` -/

/-- The lower of a number and its opposite is at most half of the order. -/
theorem lowS_range {s : ℤ} (hs : 0 ≤ s ∧ s < order) : 0 ≤ lowS s ∧ lowS s ≤ order / 2 := by
  rw [lowS]
  split <;> omega

theorem lowS_eq_zero_iff {s : ℤ} (hs : s < order) : lowS s = 0 ↔ s = 0 := by
  have hpos : 0 < order := prime_order.pos
  rw [lowS]
  split <;> omega

/-- The smaller value of `s` is `s` or its negative, modulo the order. -/
theorem cast_lowS (s : ℤ) :
    (lowS s : ZMod order) = s ∨ (lowS s : ZMod order) = -(s : ZMod order) := by
  rw [lowS]
  split
  · right
    exact cast_order_sub s
  · left
    rfl

/-- The smaller value of `s` verifies when the other does. -/
theorem verifies_lowS {Q : Group} (hQ : order • Q = 0) {z r s : ℤ}
    (h : (⟨r, s⟩ : Signature).verifies (Point.ofGroup Q) z = true) :
    (⟨r, lowS s⟩ : Signature).verifies (Point.ofGroup Q) z = true := by
  have hs : 1 ≤ s ∧ s < order := (inRange_iff.mp ((verifies_ofGroup_iff hQ).mp h).1).2
  have hlow : 0 ≤ lowS s ∧ lowS s ≤ order / 2 := lowS_range ⟨by omega, hs.2⟩
  have hne : lowS s ≠ 0 := mt (lowS_eq_zero_iff hs.2).mp (by omega)
  exact verifies_of_cast_eq_or hQ (by omega) (cast_lowS s) h

/-! ## Signing -/

/-- The second number of a signature before the smaller value is chosen. -/
def rawS (secret : ℤ) (nonce : ℕ) (z r : ℤ) : ℤ :=
  (z + r * secret) * scalarInverse nonce % order

theorem rawS_range (secret : ℤ) (nonce : ℕ) (z r : ℤ) :
    0 ≤ rawS secret nonce z r ∧ rawS secret nonce z r < order := by
  have hpos : (0 : ℤ) < order := by decide +kernel
  exact ⟨Int.emod_nonneg _ (Int.ne_of_gt hpos), Int.emod_lt_of_pos _ hpos⟩

/-- The number that is signed with, as a class. -/
theorem cast_rawS (secret : ℤ) (nonce : ℕ) (z r : ℤ) :
    (rawS secret nonce z r : ZMod order)
      = ((z : ZMod order) + r * secret) * (nonce : ZMod order)⁻¹ := by
  rw [rawS, ZMod.intCast_mod]
  push_cast
  rw [cast_scalarInverse]

theorem cast_nonce_ne_zero {nonce : ℕ} (hk : 1 ≤ nonce ∧ nonce < order) :
    (nonce : ZMod order) ≠ 0 := by
  rw [Ne, ZMod.natCast_eq_zero_iff]
  intro hdvd
  have := Nat.le_of_dvd hk.1 hdvd
  omega

/-- A usable nonce gives a signature. -/
theorem exists_signWith (secret : ℤ) {nonce : ℕ} (hk : 1 ≤ nonce ∧ nonce < order) (z : ℤ) :
    ∃ r, (Point.ofGroup (nonce • base)).x? = some r ∧
      signWith secret nonce z = .ok ⟨r, lowS (rawS secret nonce z r)⟩ := by
  -- only infinity has no first coordinate
  have hne : nonce • base ≠ 0 := by
    rw [← natCast_zsmul, Ne, zsmul_base_eq_zero_iff, Int.cast_natCast]
    exact cast_nonce_ne_zero hk
  obtain ⟨r, hr⟩ := Option.ne_none_iff_exists'.mp (mt Point.x?_ofGroup_eq_none_iff.mp hne)
  refine ⟨r, hr, ?_⟩
  rw [signWith, Point.mul_generator, natCast_zsmul]
  simp only [bind, Except.bind, hr]
  rfl

/-- With the unreduced value of `s` verification recovers the nonce point itself. -/
theorem verifies_rawS {secret : ℤ} {nonce : ℕ} {z r : ℤ} (hk : 1 ≤ nonce ∧ nonce < order)
    (hx : (Point.ofGroup (nonce • base)).x? = some r) (hr : 1 ≤ r ∧ r < order)
    (hs : rawS secret nonce z r ≠ 0) :
    (⟨r, rawS secret nonce z r⟩ : Signature).verifies (Point.ofGroup (secret • base)) z = true := by
  have hQ : order • secret • base = 0 := order_smul_zsmul_base secret
  have hrange := rawS_range secret nonce z r
  have hinv : ((⟨r, rawS secret nonce z r⟩ : Signature).inverse : ZMod order)
      = (rawS secret nonce z r : ZMod order)⁻¹ := cast_inverse hrange.1
  have hcast : (rawS secret nonce z r : ZMod order) ≠ 0 := by
    rw [Ne, ZMod.intCast_zmod_eq_zero_iff_dvd]
    intro hdvd
    have := Int.le_of_dvd (by omega) hdvd
    omega
  have hsum : (z : ZMod order) + r * secret = rawS secret nonce z r * nonce := by
    rw [cast_rawS, inv_mul_cancel_right₀ (cast_nonce_ne_zero hk)]
  -- both multiples are of the generator, and `(z + r d) / s` is the nonce
  have hpoint : (z * (⟨r, rawS secret nonce z r⟩ : Signature).inverse) • base
      + (r * (⟨r, rawS secret nonce z r⟩ : Signature).inverse) • secret • base
        = nonce • base := by
    rw [← mul_zsmul', ← add_zsmul, ← natCast_zsmul]
    refine zsmul_congr order_smul_base ?_
    push_cast
    rw [hinv]
    calc (z : ZMod order) * (rawS secret nonce z r : ZMod order)⁻¹
          + secret * (r * (rawS secret nonce z r : ZMod order)⁻¹)
        = ((z : ZMod order) + r * secret) * (rawS secret nonce z r : ZMod order)⁻¹ := by ring
      _ = nonce := by rw [hsum, mul_comm, inv_mul_cancel_left₀ hcast]
  rw [verifies_ofGroup_iff hQ, inRange_iff]
  dsimp only
  refine ⟨⟨hr, by omega⟩, ?_⟩
  rw [hpoint]
  exact hx

/-- A signature made with a nonce verifies unless one of its numbers is out of range. -/
theorem verifies_signed_iff {secret : ℤ} {nonce : ℕ} {z r : ℤ} (hk : 1 ≤ nonce ∧ nonce < order)
    (hx : (Point.ofGroup (nonce • base)).x? = some r) :
    (⟨r, lowS (rawS secret nonce z r)⟩ : Signature).verifies (Point.ofGroup (secret • base)) z = true
      ↔ (1 ≤ r ∧ r < order) ∧ lowS (rawS secret nonce z r) ≠ 0 := by
  have hQ : order • secret • base = 0 := order_smul_zsmul_base secret
  constructor
  · intro h
    rw [verifies_ofGroup_iff hQ, inRange_iff] at h
    obtain ⟨⟨hr, hs⟩, -⟩ := h
    dsimp only at hr hs
    exact ⟨hr, by omega⟩
  · rintro ⟨hr, hs⟩
    have hraw : rawS secret nonce z r ≠ 0 :=
      mt (lowS_eq_zero_iff (rawS_range secret nonce z r).2).mpr hs
    exact verifies_lowS hQ (verifies_rawS hk hx hr hraw)

/-- A secret in range has a key, whose public point is that multiple of the generator. -/
theorem exists_ofSecret {secret : ℤ} (h : 1 ≤ secret ∧ secret < order) :
    ∃ key, ofSecret secret = .ok key ∧ key.secret = secret ∧
      key.publicKey = Point.ofGroup (secret • base) := by
  refine ⟨⟨secret, _, h, Point.mul_generator secret⟩, ?_, rfl, rfl⟩
  rw [ofSecret, dif_pos h]
  split
  · next p hp =>
      obtain rfl := Except.ok.inj (hp.symm.trans (Point.mul_generator secret))
      rfl
  · next e he => exact nomatch he.symm.trans (Point.mul_generator secret)

/-- The key of the secret one, whose public point is the generator. -/
def one : PrivateKey where
  secret := 1
  publicKey := generator
  secret_range := by decide +kernel
  publicKey_eq := by rw [Point.mul_generator, one_zsmul, Point.ofGroup_base]

/-- What a key signs verifies under it, unless `r` is not a number from one up to the order or `s`
    is zero; and no signature stops verifying when the smaller value of `s` is chosen. -/
theorem sign_verifies_iff [Digests] {secret z : ℤ} {nonce : ℕ}
    (hsecret : 1 ≤ secret ∧ secret < order) (hnonce : Nonce.find? secret z = some nonce) :
    ∃ key sig, ofSecret secret = .ok key ∧ key.sign z = some (.ok sig) ∧
      0 ≤ sig.s ∧ sig.s ≤ order / 2 ∧
      (sig.verifies key.publicKey z = true ↔ (1 ≤ sig.r ∧ sig.r < order) ∧ sig.s ≠ 0) ∧
      ∀ s, (⟨sig.r, s⟩ : Signature).verifies key.publicKey z = true →
        (⟨sig.r, lowS s⟩ : Signature).verifies key.publicKey z = true := by
  have hk := Nonce.search_range hnonce
  obtain ⟨key, hkey, hsec, hpub⟩ := exists_ofSecret hsecret
  obtain ⟨r, hx, hsig⟩ := exists_signWith secret hk z
  have hsign : key.sign z = some (.ok ⟨r, lowS (rawS secret nonce z r)⟩) := by
    rw [sign, hsec, hnonce]
    exact congrArg some hsig
  have hlow := lowS_range (rawS_range secret nonce z r)
  have hQ : order • secret • base = 0 := order_smul_zsmul_base secret
  refine ⟨key, _, hkey, hsign, hlow.1, hlow.2, ?_, ?_⟩
  · rw [hpub]
    exact verifies_signed_iff hk hx
  · intro s hs
    rw [hpub] at hs ⊢
    exact verifies_lowS hQ hs

/-- Digests that do not depend on what is digested; the keyed one is the number one. -/
@[reducible]
def constantDigests : Digests where
  sha1 _ := .zero 20
  sha256 _ := .zero 32
  ripemd160 _ := .zero 20
  hash160 _ := .zero 20
  hash256 _ := .zero 32
  hmacSha256 _ _ := scalarBlock 1

theorem find?_constantDigests (secret z : ℤ) :
    @Nonce.find? constantDigests secret z = some 1 := by
  have hblock : beValue (scalarBlock 1).toBytes = 1 := by decide +kernel
  have husable : 1 ≤ beValue (scalarBlock 1).toBytes ∧
      beValue (scalarBlock 1).toBytes < order := by decide +kernel
  refine (@Nonce.Generator.search.eq_1 constantDigests _).trans ?_
  exact (if_pos husable).trans (congrArg some hblock)

/-- The secret one signs zero with the nonce one. -/
theorem sign_verifies_iff_one :
    ((1 : ℤ) ≤ 1 ∧ (1 : ℤ) < order) ∧ @Nonce.find? constantDigests 1 0 = some 1 ∧
      ∃ key sig, ofSecret 1 = .ok key ∧ @sign constantDigests key 0 = some (.ok sig) ∧
        0 ≤ sig.s ∧ sig.s ≤ order / 2 ∧
        (sig.verifies key.publicKey 0 = true ↔ (1 ≤ sig.r ∧ sig.r < order) ∧ sig.s ≠ 0) ∧
        ∀ s, (⟨sig.r, s⟩ : Signature).verifies key.publicKey 0 = true →
          (⟨sig.r, lowS s⟩ : Signature).verifies key.publicKey 0 = true :=
  have hone : (1 : ℤ) ≤ 1 ∧ (1 : ℤ) < order := by decide +kernel
  ⟨hone, find?_constantDigests 1 0,
    @sign_verifies_iff constantDigests 1 0 1 hone (find?_constantDigests 1 0)⟩

end PrivateKey

end Bitcoin
