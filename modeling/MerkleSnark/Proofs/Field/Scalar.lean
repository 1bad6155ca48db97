import Mathlib
import MerkleSnark.Proofs.Field.Primality
import MerkleSnark.Proofs.Field.Residue

/-!
# Scalars and their roots of unity

The scalars form a field, and `Fr.rootOfUnity?` finds a primitive root of unity of every order
`2 ^ k` with `k` up to twenty-eight.

## Main definitions

* `Fr.root n` — the root of unity that the search of order `n` returns.
* `ScalarInput` — a scalar as a caller may give it.

## Main results

* `Fr.isPrimitiveRoot_root` — its order is `n` for the powers of two up to `Fr.maxDomainSize`.
* `Fr.rootOfUnity?_eq`, `Fr.rootsOfUnity?_eq` — the search succeeds for these orders.
* `Fr.generator_pow_ne_one` — the shift of the coset domain lies on none of these domains.
* `ScalarInput.val_toFr` — an integer is used modulo the order.
-/

namespace MerkleSnark

instance : OddPrime scalarOrder := ⟨prime_scalarOrder, by decide⟩

theorem isPowerOfTwo_two_pow (k : ℕ) : isPowerOfTwo (2 ^ k) = true := by
  simp [isPowerOfTwo, Nat.and_two_pow_sub_one_eq_mod]

namespace Fr

theorem generator_eq : generator = ((5 : ℕ) : Fr) := rfl

theorem natCast_pow_eq {a n : ℕ} (bits : ℕ) (hn : n < 2 ^ bits) :
    ((a : ℕ) : Fr) ^ n = ((powerMod scalarOrder a bits n : ℕ) : Fr) := by
  rw [powerMod_eq _ _ hn]
  calc ((a : ℕ) : Fr) ^ n = ((a ^ n : ℕ) : Fr) := (Nat.cast_pow a n).symm
    _ = ((a ^ n % scalarOrder : ℕ) : Fr) := (Residue.natCast_eq_natCast_iff _ _).mpr (by simp)

theorem natCast_scalarOrder : ((scalarOrder : ℕ) : Fr) = 0 := Residue.ext (Nat.mod_self _)

/-- The generator is no square. -/
theorem generator_pow_half : generator ^ ((scalarOrder - 1) / 2) = -1 := by
  have hsum : ((scalarOrder - 1 : ℕ) : Fr) + 1 = 0 := by
    rw [← Nat.cast_succ, show (scalarOrder - 1).succ = scalarOrder from rfl, natCast_scalarOrder]
  rw [generator_eq, natCast_pow_eq 254 (by decide), powerMod_generator_half]
  exact eq_neg_of_add_eq_zero_left hsum

theorem generator_pow_order : generator ^ (scalarOrder - 1) = 1 := by
  have h : scalarOrder - 1 = (scalarOrder - 1) / 2 * 2 := by decide
  rw [h, pow_mul, generator_pow_half]
  norm_num

theorem neg_one_ne_one : (-1 : Fr) ≠ 1 := by decide

/-- The root of unity that the search of order `n` returns. -/
def root (n : ℕ) : Fr := generator ^ ((scalarOrder - 1) / n)

theorem two_pow_dvd {k : ℕ} (hk : k ≤ 28) : 2 ^ k ∣ scalarOrder - 1 :=
  (pow_dvd_pow 2 hk).trans (by decide)

/-- The root for `2 ^ k` has the order `2 ^ k`. -/
theorem isPrimitiveRoot_root {k : ℕ} (hk : k ≤ 28) : IsPrimitiveRoot (root (2 ^ k)) (2 ^ k) := by
  have hone : root (2 ^ k) ^ 2 ^ k = 1 := by
    rw [root, ← pow_mul, Nat.div_mul_cancel (two_pow_dvd hk), generator_pow_order]
  cases k with
  | zero => simpa using hone
  | succ k =>
    have hhalf : (scalarOrder - 1) / 2 ^ (k + 1) * 2 ^ k = (scalarOrder - 1) / 2 := by
      refine (Nat.div_eq_of_eq_mul_left (by decide) ?_).symm
      rw [mul_assoc, ← pow_succ, Nat.div_mul_cancel (two_pow_dvd hk)]
    have hne : root (2 ^ (k + 1)) ^ 2 ^ k ≠ 1 := by
      rw [root, ← pow_mul, hhalf, generator_pow_half]
      exact neg_one_ne_one
    exact IsPrimitiveRoot.iff_orderOf.mpr (orderOf_eq_prime_pow hne hone)

/-- The search for a root of unity succeeds for the powers of two up to the largest domain. -/
theorem rootOfUnity?_eq {k : ℕ} (hk : k ≤ 28) :
    rootOfUnity? ((2 ^ k : ℕ) : ℤ) = .ok (root (2 ^ k)) := by
  have hpos : (0 : ℤ) < ((2 ^ k : ℕ) : ℤ) := by positivity
  have hle : ((2 ^ k : ℕ) : ℤ) ≤ (maxDomainSize : ℤ) := by
    have h : (2 ^ k : ℕ) ≤ 2 ^ 28 := Nat.pow_le_pow_right (by decide) hk
    exact_mod_cast h
  rw [rootOfUnity?, if_neg, if_neg (by omega), Int.toNat_natCast, root]
  rw [Int.toNat_natCast, isPowerOfTwo_two_pow]
  simp only [Bool.true_eq_false, or_false]
  omega

/-- It succeeds for no other size. -/
theorem exists_of_rootOfUnity? {n : ℕ} {omega : Fr} (h : rootOfUnity? (n : ℤ) = .ok omega) :
    ∃ k ≤ 28, n = 2 ^ k ∧ omega = root (2 ^ k) := by
  have hmax : maxDomainSize = 2 ^ 28 := rfl
  rw [rootOfUnity?, Int.toNat_natCast] at h
  split at h
  · cases h
  · next hpower =>
    split at h
    · cases h
    · next hle =>
      rw [not_or, Bool.not_eq_false] at hpower
      obtain ⟨hpos, hpower⟩ := hpower
      have hzero : n ≠ 0 := by omega
      have hand : n &&& (n - 1) = 0 := by
        simp only [isPowerOfTwo, Bool.and_eq_true, beq_iff_eq] at hpower
        exact hpower.2
      obtain ⟨k, rfl⟩ := (Nat.and_sub_one_eq_zero_iff_isPowerOfTwo hzero).mp hand
      have hk : (2 : ℕ) ^ k ≤ 2 ^ 28 := by omega
      exact ⟨k, (Nat.pow_le_pow_iff_right (by decide)).mp hk, rfl, (Except.ok.inj h).symm⟩

theorem rootsOfUnity?_eq {k : ℕ} (hk : k ≤ 28) :
    rootsOfUnity? ((2 ^ k : ℕ) : ℤ) = .ok (powersFrom 1 (root (2 ^ k)) (2 ^ k)) := by
  rw [rootsOfUnity?, rootOfUnity?_eq hk]
  rfl

/-- The shift of the coset lies on no domain: its power to the size of a domain is not one.  The
size divides a third of the group order, and the generator is no cube. -/
theorem generator_pow_ne_one {k : ℕ} (hk : k ≤ 28) : generator ^ 2 ^ k ≠ 1 := by
  intro h
  have hdvd : 2 ^ k ∣ (scalarOrder - 1) / 3 := (pow_dvd_pow 2 hk).trans (by decide)
  have hthird : generator ^ ((scalarOrder - 1) / 3) = 1 := by
    obtain ⟨c, hc⟩ := hdvd
    rw [hc, pow_mul, h, one_pow]
  rw [generator_eq, natCast_pow_eq 254 (by decide)] at hthird
  have hval := congrArg Residue.val hthird
  rw [Residue.val_natCast, show (1 : Fr).val = 1 from rfl] at hval
  exact powerMod_generator_third hval

end Fr

/-! ### Scalars as they are given -/

/-- A scalar as a caller may give it: an element of the field, or any integer. -/
inductive ScalarInput
  /-- An element of the field. -/
  | element (k : Fr)
  /-- An integer, not reduced. -/
  | integer (n : ℤ)
  deriving DecidableEq, Repr

namespace ScalarInput

/-- The integer that is read off a scalar. -/
def toInt : ScalarInput → ℤ
  | element k => k.val
  | integer n => n

/-- The factor with which a point is multiplied: the integer modulo the order, never negative. -/
def factor (s : ScalarInput) : ℕ := (s.toInt % scalarOrder).toNat

/-- The scalar as an element of the field. -/
def toFr : ScalarInput → Fr
  | element k => k
  | integer n => .ofInt scalarOrder n

/-- **An integer is used modulo the order**, and an element as it stands. -/
theorem val_toFr (s : ScalarInput) : s.toFr.val = s.factor := by
  cases s with
  | element k =>
    have hlt : (k.val : ℤ) < scalarOrder := by exact_mod_cast k.val_lt
    rw [toFr, factor, toInt, Int.emod_eq_of_lt (Int.natCast_nonneg _) hlt, Int.toNat_natCast]
  | integer n =>
    have hpos : (0 : ℤ) < scalarOrder := by decide
    have hlt : (n % scalarOrder).toNat < scalarOrder := by
      have := Int.emod_lt_of_pos n hpos
      omega
    rw [toFr, factor, toInt, Residue.ofInt, Residue.val_ofNat, Nat.mod_eq_of_lt hlt]

/-- The integer that is read off a scalar stands for it. -/
theorem ofInt_toInt (s : ScalarInput) : Residue.ofInt scalarOrder s.toInt = s.toFr := by
  cases s with
  | element k => exact (Int.cast_natCast k.val).trans (Residue.natCast_val k)
  | integer n => rfl

end ScalarInput

end MerkleSnark
