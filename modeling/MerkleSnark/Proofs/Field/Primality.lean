import Mathlib
import MerkleSnark.Field.Scalar

/-!
# The scalar order is prime

Lucas's test proves a number prime from a primitive root and the prime factors of the number less
one.  The factors are certified in the same way until they are small, each in a chain before the
numbers that need it.  Powers are taken by repeated squaring on natural numbers, which the kernel
evaluates quickly.

## Main definitions

* `powerMod` — the residue of a power.
* `lucasCheck` — the arithmetic part of Lucas's test.
* `lucasChain` — the test of several numbers, each with the help of those before it.

## Main results

* `prime_of_lucasCheck` — a number that passes the test is prime.
* `prime_of_lucasChain` — so are the numbers of a chain.
* `prime_scalarOrder` — the order of the pairing groups is prime.
-/

namespace MerkleSnark

/-- The residue of `a ^ n` modulo `m`, for an exponent of at most the given number of binary
digits. -/
def powerMod (m a : ℕ) : ℕ → ℕ → ℕ
  | 0, _ => 1 % m
  | bits + 1, n =>
    let root := powerMod m a bits (n / 2)
    if n % 2 = 0 then root * root % m else root * root % m * a % m

theorem powerMod_eq (m a : ℕ) {bits n : ℕ} (hn : n < 2 ^ bits) :
    powerMod m a bits n = a ^ n % m := by
  induction bits generalizing n with
  | zero =>
    have h : n = 0 := by simpa using hn
    rw [h, powerMod, pow_zero]
  | succ bits ih =>
    have hhalf : n / 2 < 2 ^ bits := by rw [pow_succ] at hn; omega
    have hsquare : a ^ (n / 2) % m * (a ^ (n / 2) % m) % m = a ^ (2 * (n / 2)) % m := by
      rw [← Nat.mul_mod, ← pow_add, two_mul]
    simp only [powerMod, ih hhalf, hsquare]
    split
    · next h => rw [show 2 * (n / 2) = n by omega]
    · next h =>
      rw [Nat.mod_mul_mod, ← pow_succ, show 2 * (n / 2) + 1 = n by omega]

/-- Lucas's test for `p` with the candidate root `a` and the prime factors of `p - 1`: the order of
`a` divides `p - 1` and no proper divisor of it. -/
def lucasCheck (bits p a : ℕ) (factors : List ℕ) : Bool :=
  2 ≤ p && p ≤ 2 ^ bits && factors.prod == p - 1 && powerMod p a bits (p - 1) == 1
    && factors.all fun q => powerMod p a bits ((p - 1) / q) != 1

/-- The power of a class is one exactly when the residue of the power is. -/
theorem natCast_pow_eq_one_iff {p : ℕ} (hp : 2 ≤ p) (a n : ℕ) :
    (a : ZMod p) ^ n = 1 ↔ a ^ n % p = 1 := by
  rw [← Nat.cast_pow, ← Nat.cast_one, ZMod.natCast_eq_natCast_iff', Nat.mod_eq_of_lt hp]

/-- **Lucas's test is sound.** -/
theorem prime_of_lucasCheck {p : ℕ} (bits a : ℕ) (factors : List ℕ)
    (hprime : ∀ q ∈ factors, q.Prime) (h : lucasCheck bits p a factors = true) : p.Prime := by
  simp only [lucasCheck, Bool.and_eq_true, decide_eq_true_eq, beq_iff_eq, List.all_eq_true,
    bne_iff_ne, ne_eq] at h
  obtain ⟨⟨⟨⟨hp, hbits⟩, hprod⟩, hone⟩, hne⟩ := h
  have hlt : ∀ n, n ≤ p - 1 → n < 2 ^ bits := fun n hn => by omega
  refine lucas_primality p (a : ZMod p) ?_ fun q hq hdvd => ?_
  · rw [natCast_pow_eq_one_iff hp, ← powerMod_eq _ _ (hlt _ le_rfl)]
    exact hone
  · -- a prime divisor of the product is one of the factors
    rw [← hprod] at hdvd
    obtain ⟨f, hf, hqf⟩ := (Prime.dvd_prod_iff hq.prime).mp hdvd
    rw [(Nat.prime_dvd_prime_iff_eq hq (hprime f hf)).mp hqf, ne_eq, natCast_pow_eq_one_iff hp,
      ← powerMod_eq _ _ (hlt _ (Nat.div_le_self _ _))]
    exact hne f hf

/-! ### Chains of tests -/

/-- A number with a candidate root and the prime factors of the number less one. -/
structure LucasStep where
  number : ℕ
  root : ℕ
  factors : List ℕ

/-- Each number passes Lucas's test with factors that are known when its turn comes. -/
def lucasChain (bits : ℕ) : List ℕ → List LucasStep → Bool
  | _, [] => true
  | known, step :: steps =>
    step.factors.all (known.contains ·) && lucasCheck bits step.number step.root step.factors
      && lucasChain bits (step.number :: known) steps

/-- **The numbers of a chain are prime** when those known at its start are. -/
theorem prime_of_lucasChain (bits : ℕ) {known : List ℕ} {steps : List LucasStep}
    (hknown : ∀ q ∈ known, q.Prime) (h : lucasChain bits known steps = true) :
    ∀ p ∈ steps.map LucasStep.number, p.Prime := by
  induction steps generalizing known with
  | nil => exact fun _ hmem => absurd hmem List.not_mem_nil
  | cons step steps ih =>
    simp only [lucasChain, Bool.and_eq_true, List.all_eq_true, List.contains_iff_mem] at h
    obtain ⟨⟨hfactors, hcheck⟩, hsteps⟩ := h
    have hprime : step.number.Prime :=
      prime_of_lucasCheck bits step.root step.factors (fun q hq => hknown q (hfactors q hq)) hcheck
    exact List.forall_mem_cons.mpr ⟨hprime, ih (List.forall_mem_cons.mpr ⟨hprime, hknown⟩) hsteps⟩

/-- The large factors of the scalar order less one, those of these factors less one, and the scalar
order itself. -/
def scalarChain : List LucasStep :=
  [⟨405928799, 22, [2, 11, 3691, 4999]⟩,
    ⟨12048837557, 2, [2, 2, 7, 7, 661, 93001]⟩,
    ⟨5156902474397, 2, [2, 2, 107, 12048837557]⟩,
    ⟨1670836401704629, 2, [2, 2, 3, 3, 3, 3, 5156902474397]⟩,
    ⟨639533339, 2, [2, 229, 853, 1637]⟩,
    ⟨65865678001877903, 5, [2, 83, 379, 1637, 639533339]⟩,
    ⟨13818364434197438864469338081, 3,
      [2, 2, 2, 2, 2, 5, 823, 1593227, 65865678001877903]⟩,
    ⟨scalarOrder, 5, List.replicate 28 2 ++ [3, 3, 13, 29, 983, 11003, 237073, 405928799,
      1670836401704629, 13818364434197438864469338081]⟩]

theorem prime_of_mem_scalarChain : ∀ p ∈ scalarChain.map LucasStep.number, p.Prime := by
  have hsmall : ∀ q ∈ [2, 3, 5, 7, 11, 13, 29, 83, 107, 229, 379, 661, 823, 853, 983, 1637, 3691,
      4999, 11003, 93001, 237073, 1593227], q.Prime := by
    norm_num
  exact prime_of_lucasChain 254 hsmall (by decide +kernel)

theorem prime_405928799 : Nat.Prime 405928799 :=
  prime_of_mem_scalarChain _ List.mem_cons_self

/-- **The order of the pairing groups is prime.** -/
theorem prime_scalarOrder : scalarOrder.Prime :=
  prime_of_mem_scalarChain _ (by simp [scalarChain])

/-- The generator is no square: its power to half of the group order is not one. -/
theorem powerMod_generator_half :
    powerMod scalarOrder 5 254 ((scalarOrder - 1) / 2) = scalarOrder - 1 := by decide +kernel

/-- The generator is no cube. -/
theorem powerMod_generator_third :
    powerMod scalarOrder 5 254 ((scalarOrder - 1) / 3) % scalarOrder ≠ 1 := by decide +kernel

end MerkleSnark
