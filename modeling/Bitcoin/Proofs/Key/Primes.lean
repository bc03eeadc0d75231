import Bitcoin.Key.Secp256k1
import Bitcoin.Proofs.Curve.Field
import Mathlib.Data.List.Prime
import Mathlib.NumberTheory.LucasPrimality
import Mathlib.Tactic.NormNum.Prime

/-!
# The modulus of the coordinates and the order of the generator are prime

A number is prime when some unit has its predecessor as order, and the order is found by trying
the prime factors of the predecessor, which have to be known as primes before. A `LucasStep` holds
the unit and the factors for one number, and a chain of steps leads from primes that are small
enough for trial division to the two numbers of the curve.

* **`prime_of_chain`**: in a chain that passes its check every number is prime.
* **`prime_fieldPrime`**, **`prime_order`**: the two numbers of the curve.
-/

namespace Bitcoin

/-- A number, a unit of the order one below it, and the prime factors of that order, each as often
    as it divides. -/
structure LucasStep where
  value : ℕ
  unit : ℕ
  factors : List ℕ

namespace LucasStep

/-- Whether the factors are known primes with the right product, and the unit has the right
    order. -/
def holds (known : List ℕ) (c : LucasStep) : Bool :=
  c.factors.all (· ∈ known) && c.factors.prod = c.value - 1 &&
    powMod c.value c.unit (c.value - 1) = 1 % c.value &&
    c.factors.all fun q => powMod c.value c.unit ((c.value - 1) / q) ≠ 1 % c.value

/-- Whether every step holds when the numbers of the steps before it are known as well. -/
def chainHolds : List ℕ → List LucasStep → Bool
  | _, [] => true
  | known, c :: cs => c.holds known && chainHolds (c.value :: known) cs

/-- A power modulo a number is one when it is one among the classes. -/
theorem powMod_eq_one_iff (m b e : ℕ) : powMod m b e = 1 % m ↔ (b : ZMod m) ^ e = 1 := by
  rw [powMod_eq, ← Nat.cast_pow, ← ZMod.natCast_eq_natCast_iff', Nat.cast_one]

/-- Lucas' criterion: a number is a prime when its predecessor is the order of a class. -/
theorem prime_of_holds {known : List ℕ} {c : LucasStep} (hknown : ∀ q ∈ known, q.Prime)
    (h : c.holds known = true) : c.value.Prime := by
  simp only [holds, Bool.and_eq_true, List.all_eq_true, decide_eq_true_eq] at h
  obtain ⟨⟨⟨hfactors, hprod⟩, hfull⟩, hpart⟩ := h
  refine lucas_primality c.value c.unit ((powMod_eq_one_iff _ _ _).mp hfull) ?_
  intro q hq hdvd hone
  -- a prime factor of the product is one of the listed primes, for which the power was tried
  have hprimes : ∀ r ∈ c.factors, Prime r := fun r hr => (hknown r (hfactors r hr)).prime
  have hmem : q ∈ c.factors := mem_list_primes_of_dvd_prod hq.prime hprimes (hprod ▸ hdvd)
  exact hpart q hmem ((powMod_eq_one_iff _ _ _).mpr hone)

/-- In a chain that passes its check every number is prime. -/
theorem prime_of_chain {known : List ℕ} {cs : List LucasStep} (hknown : ∀ q ∈ known, q.Prime)
    (h : chainHolds known cs = true) : ∀ c ∈ cs, c.value.Prime := by
  induction cs generalizing known with
  | nil => intro c hc; exact nomatch hc
  | cons d ds ih =>
      rw [chainHolds, Bool.and_eq_true] at h
      have hd : d.value.Prime := prime_of_holds hknown h.1
      intro c hc
      rcases List.mem_cons.mp hc with rfl | hmem
      · exact hd
      · exact ih (List.forall_mem_cons.mpr ⟨hd, hknown⟩) h.2 c hmem

end LucasStep

namespace Secp256k1

/-- The primes at the beginning of the chain. -/
def smallPrimes : List ℕ :=
  [2, 3, 5, 7, 11, 13, 17, 19, 23, 29, 31, 41, 53, 59, 97, 109, 113, 149, 293, 461, 631, 797, 971,
   1373, 1627, 1871, 2011, 2621, 2657, 2731, 4051, 4423, 5323, 7723, 9349, 13441, 16699, 20113,
   24809, 28181, 41201, 85831, 96557, 120233, 305873]

/-- The primes that the chain starts with. -/
theorem prime_of_mem_smallPrimes : ∀ q ∈ smallPrimes, q.Prime := by
  simp only [smallPrimes, List.forall_mem_cons, List.not_mem_nil, false_imp_iff, implies_true]
  norm_num

/-- The chain up to the modulus of the coordinates. -/
def fieldPrimeChain : List LucasStep :=
  [⟨13331831, 13, [2, 5, 971, 1373]⟩,
   ⟨173378833005251801, 6, [2, 2, 2, 5, 5, 2621, 24809, 13331831]⟩,
   ⟨22149492674086928081353, 5, [2, 2, 2, 3, 5323, 173378833005251801]⟩,
   ⟨132896956044521568488119, 6, [2, 3, 22149492674086928081353]⟩,
   ⟨1206781, 10, [2, 2, 3, 5, 20113]⟩,
   ⟨7240687, 3, [2, 3, 1206781]⟩,
   ⟨107590001, 3, [2, 2, 2, 2, 5, 5, 5, 5, 7, 29, 53]⟩,
   ⟨255515944373312847190720520512484175977, 3,
    [2, 2, 2, 7, 7, 11, 1627, 2657, 4423, 41201, 96557, 7240687, 107590001]⟩,
   ⟨205115282021455665897114700593932402728804164701536103180137503955397371, 10,
    [2, 3, 5, 29, 29, 31, 7723, 132896956044521568488119,
     255515944373312847190720520512484175977]⟩,
   ⟨fieldPrime, 3,
    [2, 3, 7, 13441, 205115282021455665897114700593932402728804164701536103180137503955397371]⟩]

/-- The chain up to the order of the generator. -/
def orderChain : List LucasStep :=
  [⟨4681609, 23, [2, 2, 2, 3, 97, 2011]⟩,
   ⟨107361793816595537, 3, [2, 2, 2, 2, 16699, 85831, 4681609]⟩,
   ⟨44706919, 6, [2, 3, 797, 9349]⟩,
   ⟨174723607534414371449, 3, [2, 2, 2, 17, 59, 4051, 120233, 44706919]⟩,
   ⟨545358713, 5, [2, 2, 2, 41, 59, 28181]⟩,
   ⟨1627771, 3, [2, 3, 5, 29, 1871]⟩,
   ⟨297159362677, 2, [2, 2, 3, 3, 11, 461, 1627771]⟩,
   ⟨29047611873442575647497758179, 2, [2, 293, 305873, 545358713, 297159362677]⟩,
   ⟨341948486974166000522343609283189, 2, [2, 2, 3, 3, 3, 109, 29047611873442575647497758179]⟩,
   ⟨order, 7,
    [2, 2, 2, 2, 2, 2, 3, 149, 631, 107361793816595537, 174723607534414371449,
     341948486974166000522343609283189]⟩]

/-- The modulus of the coordinates is prime. -/
theorem prime_fieldPrime : fieldPrime.Prime := by
  have hchain : LucasStep.chainHolds smallPrimes fieldPrimeChain = true := by decide +kernel
  exact LucasStep.prime_of_chain prime_of_mem_smallPrimes hchain _
    (List.getLast_mem (List.cons_ne_nil _ _))

/-- The order of the generator is prime. -/
theorem prime_order : order.Prime := by
  have hchain : LucasStep.chainHolds smallPrimes orderChain = true := by decide +kernel
  exact LucasStep.prime_of_chain prime_of_mem_smallPrimes hchain _
    (List.getLast_mem (List.cons_ne_nil _ _))

instance : Fact fieldPrime.Prime := ⟨prime_fieldPrime⟩

instance : Fact order.Prime := ⟨prime_order⟩

end Secp256k1

end Bitcoin
