import Bitcoin.Proofs.Key.Signing
import Bitcoin.Proofs.Bytes.Numeral

/-!
# Nonces of different messages

Two signatures with one nonce reveal the secret, so messages that are signed differently must draw
their nonces from different streams. A stream starts from the secret and the message as blocks of 32
bytes, and the message counts modulo the order where it is signed. The block keeps it apart from the
messages that it does not agree with: a digest of 256 bits is less than twice the order, so it is
reduced once the order is taken off. A number below zero or far above is not: of these the block
holds the low 32 bytes of the magnitude, which opposite numbers share.

* **`seed_eq_iff`**: which messages have one seed under a secret.
* **`modEq_of_seed_eq`**: for digests these agree modulo the order.
* **`eq_or_clash_of_candidate_eq`**: streams of different seeds part, or else the keyed digest gives
  one value for two of the calls that were made.
* **`seed_separates`**: messages that do not agree modulo the order.
* **`seed_eq_of_not_modEq`**: opposite numbers have one seed.
-/

namespace Bitcoin

open Secp256k1

/-- With a given nonce, messages that agree modulo the order are signed alike. -/
theorem PrivateKey.signWith_congr {secret z w : ℤ} (nonce : ℕ) (h : z ≡ w [ZMOD order]) :
    signWith secret nonce z = signWith secret nonce w := by
  have hs : ∀ r inverse : ℤ,
      (z + r * secret) * inverse % order = (w + r * secret) * inverse % order :=
    fun r inverse => (h.add_right (r * secret)).mul_right inverse
  simp only [signWith, hs]

namespace Nonce

/-! ## The blocks that a stream starts from -/

/-- The number whose magnitude stands for a message. -/
def messageNumber (z : ℤ) : ℤ := if order ≤ z then z - order else z

theorem scalarBlock_eq_iff {m n : ℤ} :
    scalarBlock m = scalarBlock n ↔ m.natAbs % 2 ^ 256 = n.natAbs % 2 ^ 256 := by
  have hpow : 256 ^ 32 = 2 ^ 256 := by decide +kernel
  rw [← hpow, ← leFixed_eq_iff]
  constructor
  · intro h
    exact List.reverse_injective (congrArg FixedBytes.toBytes h)
  · intro h
    exact FixedBytes.ext (congrArg List.reverse h)

/-- Two messages have one seed when the numbers that stand for them agree in the low 32 bytes of the
    magnitude. -/
theorem seed_eq_iff {secret z w : ℤ} : seed secret z = seed secret w ↔
    (messageNumber z).natAbs % 2 ^ 256 = (messageNumber w).natAbs % 2 ^ 256 := by
  rw [← scalarBlock_eq_iff]
  constructor
  · intro h
    exact FixedBytes.ext (List.append_cancel_left h)
  · intro h
    exact congrArg (fun block : FixedBytes 32 => (scalarBlock secret).toBytes ++ block.toBytes) h

theorem messageNumber_modEq (z : ℤ) : messageNumber z ≡ z [ZMOD order] := by
  rw [messageNumber]
  by_cases h : order ≤ z
  · rw [if_pos h]
    exact Int.sub_modulus_modEq_iff.mpr rfl
  · rw [if_neg h]

/-- A message that is not too far above the order is stood for by a number that fits the block. -/
theorem messageNumber_range {z : ℤ} (h : 0 ≤ z ∧ z < order + 2 ^ 256) :
    0 ≤ messageNumber z ∧ messageNumber z < 2 ^ 256 := by
  have horder : (order : ℤ) ≤ 2 ^ 256 := by decide +kernel
  rw [messageNumber]
  by_cases hz : order ≤ z
  · rw [if_pos hz]
    omega
  · rw [if_neg hz]
    omega

/-- Messages in range that have one seed agree modulo the order. -/
theorem modEq_of_seed_eq {secret z w : ℤ} (hz : 0 ≤ z ∧ z < order + 2 ^ 256)
    (hw : 0 ≤ w ∧ w < order + 2 ^ 256) (h : seed secret z = seed secret w) :
    z ≡ w [ZMOD order] := by
  have hzr := messageNumber_range hz
  have hwr := messageNumber_range hw
  have hmod := seed_eq_iff.mp h
  rw [Nat.mod_eq_of_lt (by omega), Nat.mod_eq_of_lt (by omega)] at hmod
  have hnumber : messageNumber z = messageNumber w := by omega
  exact (messageNumber_modEq z).symm.trans (hnumber ▸ messageNumber_modEq w)

/-! ## The stream -/

section

variable [Digests]

namespace Generator

/-- The generator after a number of candidates that were refused. -/
def after (g : Generator) : ℕ → Generator
  | 0 => g
  | n + 1 => g.retry.after n

/-- What the search yields is the first candidate that is usable. -/
theorem exists_candidate_of_search {g : Generator} {k : ℕ} (h : g.search = some k) :
    ∃ n, (g.after n).candidate = k := by
  refine search.partial_correctness (motive := fun g k => ∃ n, (g.after n).candidate = k) ?_ g k h
  intro search ih g k hk
  split at hk
  · exact ⟨0, Option.some.inj hk⟩
  · obtain ⟨n, hn⟩ := ih g.retry k hk
    exact ⟨n + 1, hn⟩

end Generator

/-- The candidates of a seed, one after the other. -/
def candidate (seed : Bytes) (n : ℕ) : ℕ := ((Generator.ofSeed seed).after n).candidate

/-- A nonce comes from the stream of its seed. -/
theorem exists_candidate_of_find? {secret z : ℤ} {nonce : ℕ} (h : find? secret z = some nonce) :
    ∃ n, candidate (seed secret z) n = nonce :=
  Generator.exists_candidate_of_search h

/-! ## Streams that meet -/

/-- Two different calls of the keyed digest, each a key and an input, with one value. -/
def Collide (a b : Bytes × Bytes) : Prop :=
  a ≠ b ∧ Digests.hmacSha256 a.1 a.2 = Digests.hmacSha256 b.1 b.2

/-- One of the first calls and one of the second collide. -/
def Clash (as bs : List (Bytes × Bytes)) : Prop := ∃ a ∈ as, ∃ b ∈ bs, Collide a b

theorem eq_or_collide {a b : Bytes × Bytes}
    (h : (Digests.hmacSha256 a.1 a.2).toBytes = (Digests.hmacSha256 b.1 b.2).toBytes) :
    a = b ∨ Collide a b :=
  or_iff_not_imp_left.mpr fun hne => ⟨hne, FixedBytes.ext h⟩

theorem Clash.mono {as bs cs ds : List (Bytes × Bytes)} (h : Clash as bs) (hcs : as ⊆ cs)
    (hds : bs ⊆ ds) : Clash cs ds := by
  obtain ⟨a, ha, b, hb, hab⟩ := h
  exact ⟨a, hcs ha, b, hds hb, hab⟩

namespace Generator

/-- The calls from a generator on, up to the candidate after a number of refused ones. -/
def calls (g : Generator) : ℕ → List (Bytes × Bytes)
  | 0 => [(g.key, g.value)]
  | n + 1 => (g.key, g.value) :: (g.key, g.nextValue ++ [0x00]) :: (g.retry.key, g.nextValue) ::
      g.retry.calls n

theorem nextValue_eq_of_candidate_eq {g h : Generator} (heq : g.candidate = h.candidate) :
    g.nextValue = h.nextValue := by
  have hlength : ∀ k : Generator, k.nextValue.length = 32 := fun k => FixedBytes.length_toBytes _
  rw [← beFixed_beValue g.nextValue, ← beFixed_beValue h.nextValue, hlength, hlength]
  exact congrArg (beFixed 32) heq

/-- Generators with different keys do not come to one candidate without a collision. -/
theorem key_eq_or_clash {g h : Generator} {n : ℕ}
    (heq : (g.after n).candidate = (h.after n).candidate) :
    g.key = h.key ∨ Clash (g.calls n) (h.calls n) := by
  -- back from the candidate to the first key, which each retry takes in
  induction n generalizing g h with
  | zero =>
      rcases eq_or_collide (a := (g.key, g.value)) (b := (h.key, h.value))
        (nextValue_eq_of_candidate_eq heq) with hcall | hcollide
      · exact .inl (Prod.mk.inj hcall).1
      · exact .inr ⟨_, List.mem_singleton_self _, _, List.mem_singleton_self _, hcollide⟩
  | succ n ih =>
      rcases ih heq with hkey | hclash
      · rcases eq_or_collide (a := (g.key, g.nextValue ++ [0x00]))
          (b := (h.key, h.nextValue ++ [0x00])) hkey with hcall | hcollide
        · exact .inl (Prod.mk.inj hcall).1
        · exact .inr ⟨_, .tail _ (.head _), _, .tail _ (.head _), hcollide⟩
      · have hback : ∀ k : Generator, k.retry.calls n ⊆ k.calls (n + 1) :=
          fun k _ hcall => .tail _ (.tail _ (.tail _ hcall))
        exact .inr (hclash.mono (hback g) (hback h))

/-- The generator before it takes in anything. -/
def initial : Generator := ⟨List.replicate 32 0x00, List.replicate 32 0x01⟩

/-- The generator after it has taken in the seed under the first tag. -/
def firstRound (seed : Bytes) : Generator :=
  initial.rekey (initial.value ++ 0x00 :: seed) initial.value

/-- The calls for the seed. -/
def seedCalls (seed : Bytes) : List (Bytes × Bytes) :=
  [(initial.key, initial.value ++ 0x00 :: seed), ((firstRound seed).key, initial.value),
    ((firstRound seed).key, (firstRound seed).value ++ 0x01 :: seed),
    ((ofSeed seed).key, (firstRound seed).value)]

/-- Different seeds do not lead to one key without a collision. -/
theorem eq_or_clash_of_key_ofSeed {s t : Bytes} (h : (ofSeed s).key = (ofSeed t).key) :
    s = t ∨ Clash (seedCalls s) (seedCalls t) := by
  rcases eq_or_collide (a := ((firstRound s).key, (firstRound s).value ++ 0x01 :: s))
    (b := ((firstRound t).key, (firstRound t).value ++ 0x01 :: t)) h with hcall | hcollide
  · left
    have hlength : ∀ seed, (firstRound seed).value.length = 32 :=
      fun seed => FixedBytes.length_toBytes _
    have hinput := (List.append_inj (Prod.mk.inj hcall).2 ((hlength s).trans (hlength t).symm)).2
    exact (List.cons_eq_cons.mp hinput).2
  · exact .inr ⟨_, .tail _ (.tail _ (.head _)), _, .tail _ (.tail _ (.head _)), hcollide⟩

end Generator

/-- The calls of the keyed digest for the candidate of a seed after a number of refused ones. -/
def calls (seed : Bytes) (n : ℕ) : List (Bytes × Bytes) :=
  Generator.seedCalls seed ++ (Generator.ofSeed seed).calls n

/-- The streams of different seeds do not meet without a collision among the calls for them. -/
theorem eq_or_clash_of_candidate_eq {s t : Bytes} {n : ℕ} (h : candidate s n = candidate t n) :
    s = t ∨ Clash (calls s n) (calls t n) := by
  have hseed : ∀ seed, Generator.seedCalls seed ⊆ calls seed n :=
    fun seed => List.subset_append_left _ _
  have hcandidate : ∀ seed, (Generator.ofSeed seed).calls n ⊆ calls seed n :=
    fun seed => List.subset_append_right _ _
  rcases Generator.key_eq_or_clash h with hkey | hclash
  · rcases Generator.eq_or_clash_of_key_ofSeed hkey with hst | hclash
    · exact .inl hst
    · exact .inr (hclash.mono (hseed s) (hseed t))
  · exact .inr (hclash.mono (hcandidate s) (hcandidate t))

/-- A message counts modulo the order where it is signed. Two that do not agree modulo the order
    have one seed under a key exactly when the numbers that stand for them agree in the low 32 bytes
    of the magnitude, and so they have different seeds when they are from zero up to the order and
    `2 ^ 256`, as digests are. Each nonce is a candidate of the stream of its seed, and where the
    seeds differ the two streams do not meet without a collision among the calls of the keyed
    digest. -/
theorem seed_separates (key : PrivateKey) {z w : ℤ} (h : ¬z ≡ w [ZMOD order]) :
    (∀ (nonce : ℕ) (m : ℤ), PrivateKey.signWith key.secret nonce m
      = PrivateKey.signWith key.secret nonce (m % order)) ∧
    (seed key.secret z = seed key.secret w ↔
      (messageNumber z).natAbs % 2 ^ 256 = (messageNumber w).natAbs % 2 ^ 256) ∧
    (0 ≤ z ∧ z < order + 2 ^ 256 → 0 ≤ w ∧ w < order + 2 ^ 256 →
      seed key.secret z ≠ seed key.secret w) ∧
    (∀ m nonce, find? key.secret m = some nonce → ∃ n, candidate (seed key.secret m) n = nonce) ∧
    (seed key.secret z ≠ seed key.secret w → ∀ n,
      candidate (seed key.secret z) n = candidate (seed key.secret w) n →
        Clash (calls (seed key.secret z) n) (calls (seed key.secret w) n)) := by
  refine ⟨fun nonce m => PrivateKey.signWith_congr nonce (Int.mod_modEq m order).symm, seed_eq_iff,
    fun hz hw hseed => h (modEq_of_seed_eq hz hw hseed), ?_, ?_⟩
  · intro m nonce hnonce
    exact exists_candidate_of_find? hnonce
  · intro hne n hcandidate
    exact (eq_or_clash_of_candidate_eq hcandidate).resolve_left hne

end

/-- The greatest digest and five do not agree, and the order is taken off the first. -/
theorem seed_separates_digest : ¬(2 ^ 256 - 1 : ℤ) ≡ 5 [ZMOD order] ∧
    seed PrivateKey.one.secret (2 ^ 256 - 1) ≠ seed PrivateKey.one.secret 5 ∧
    ∀ n, @candidate .standard (seed PrivateKey.one.secret (2 ^ 256 - 1)) n
        = @candidate .standard (seed PrivateKey.one.secret 5) n →
      @Clash .standard (@calls .standard (seed PrivateKey.one.secret (2 ^ 256 - 1)) n)
        (@calls .standard (seed PrivateKey.one.secret 5) n) := by
  have h : ¬(2 ^ 256 - 1 : ℤ) ≡ 5 [ZMOD order] := by decide +kernel
  have hseparates := @seed_separates .standard PrivateKey.one _ _ h
  have hseed := hseparates.2.2.1 (by decide +kernel) (by decide +kernel)
  exact ⟨h, hseed, hseparates.2.2.2.2 hseed⟩

/-- Opposite numbers have one seed, and so have numbers that differ by so much that the block does
    not show it. So a key signs both with one nonce. -/
theorem seed_eq_of_not_modEq :
    (¬(1 : ℤ) ≡ -1 [ZMOD order] ∧ seed PrivateKey.one.secret 1 = seed PrivateKey.one.secret (-1) ∧
      ∀ _ : Digests, find? PrivateKey.one.secret 1 = find? PrivateKey.one.secret (-1)) ∧
    ¬(0 : ℤ) ≡ order + 2 ^ 256 [ZMOD order] ∧
      seed PrivateKey.one.secret 0 = seed PrivateKey.one.secret (order + 2 ^ 256) ∧
      ∀ _ : Digests,
        find? PrivateKey.one.secret 0 = find? PrivateKey.one.secret (order + 2 ^ 256) := by
  have hopposite : seed PrivateKey.one.secret 1 = seed PrivateKey.one.secret (-1) := rfl
  have hfar : seed PrivateKey.one.secret 0 = seed PrivateKey.one.secret (order + 2 ^ 256) :=
    seed_eq_iff.mpr (by decide +kernel)
  refine ⟨⟨by decide +kernel, hopposite, fun _ => ?_⟩, by decide +kernel, hfar, fun _ => ?_⟩
  · exact congrArg (fun s => (Generator.ofSeed s).search) hopposite
  · exact congrArg (fun s => (Generator.ofSeed s).search) hfar

end Nonce

end Bitcoin
