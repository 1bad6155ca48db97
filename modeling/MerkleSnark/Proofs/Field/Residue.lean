import Mathlib
import MerkleSnark.Field.Residue

/-!
# Residues form a ring, and modulo a prime a field

The laws are those of `ZMod m`, transported along the map that forgets the reduced representative.
The operations stay the ones of `Residue`, so that every statement about a field applies to them.

## Main definitions

* `Residue.toZMod` — a residue as an element of `ZMod m`.
* `OddPrime m` — the moduli for which the power `m - 2` is an inverse.

## Main results

* `binaryPower_eq_pow` — repeated squaring computes powers.
* The instances `CommRing (Residue m)` and `Field (Residue m)`.
-/

namespace MerkleSnark

/-- Repeated squaring computes powers. -/
theorem binaryPower_eq_pow {M : Type} [Monoid M] (x : M) (n : ℕ) : binaryPower x n = x ^ n := by
  induction n using Nat.strong_induction_on generalizing x with
  | _ n ih =>
    rw [binaryPower]
    split
    · next h => rw [h, pow_zero]
    · next h =>
      have hlt : n / 2 < n := by omega
      have hsquare : (x * x) ^ (n / 2) = x ^ (2 * (n / 2)) := by rw [pow_mul, sq]
      split
      · next heven => rw [ih _ hlt, hsquare, show 2 * (n / 2) = n by omega]
      · next hodd =>
        rw [ih _ hlt, hsquare, ← pow_succ, show 2 * (n / 2) + 1 = n by omega]

namespace Residue

variable {m : ℕ}

/-- A residue as an element of `ZMod m`. -/
def toZMod (a : Residue m) : ZMod m := (a.val : ZMod m)

theorem toZMod_injective : Function.Injective (toZMod (m := m)) := by
  intro a b h
  have hmod := (ZMod.natCast_eq_natCast_iff' a.val b.val m).mp h
  rw [Nat.mod_eq_of_lt a.val_lt, Nat.mod_eq_of_lt b.val_lt] at hmod
  exact Residue.ext hmod

theorem toZMod_add (a b : Residue m) : (a + b).toZMod = a.toZMod + b.toZMod := by
  simp [toZMod]

theorem toZMod_mul (a b : Residue m) : (a * b).toZMod = a.toZMod * b.toZMod := by
  simp [toZMod]

theorem toZMod_neg (a : Residue m) : (-a).toZMod = -a.toZMod := by
  simp [toZMod, Nat.cast_sub a.val_lt.le]

theorem toZMod_sub (a b : Residue m) : (a - b).toZMod = a.toZMod - b.toZMod := by
  simp [toZMod, Nat.cast_sub b.val_lt.le, sub_eq_add_neg]

variable [Modulus m]

theorem toZMod_ofNat (n : ℕ) : (ofNat m n).toZMod = (n : ZMod m) := by simp [toZMod]

theorem toZMod_zero : (0 : Residue m).toZMod = 0 := (toZMod_ofNat 0).trans Nat.cast_zero

theorem toZMod_one : (1 : Residue m).toZMod = 1 := (toZMod_ofNat 1).trans Nat.cast_one

theorem toZMod_ofInt (n : ℤ) : (ofInt m n).toZMod = (n : ZMod m) := by
  have hpos : (0 : ℤ) < m := by exact_mod_cast Modulus.pos (m := m)
  have hcast : (((n % m).toNat : ℕ) : ℤ) = n % m := Int.toNat_of_nonneg (Int.emod_nonneg n hpos.ne')
  rw [ofInt, toZMod_ofNat, ← Int.cast_natCast, hcast, ZMod.intCast_mod]

/-- The multiplication of residues alone, with which powers are identified. -/
@[reducible] def mulMonoid : CommMonoid (Residue m) where
  mul_assoc a b c := toZMod_injective (by simp only [toZMod_mul, mul_assoc])
  one_mul a := toZMod_injective (by simp only [toZMod_mul, toZMod_one, one_mul])
  mul_one a := toZMod_injective (by simp only [toZMod_mul, toZMod_one, mul_one])
  mul_comm a b := toZMod_injective (by simp only [toZMod_mul, mul_comm])

theorem binaryPower_zero (x : Residue m) : binaryPower x 0 = 1 := by rw [binaryPower, if_pos rfl]

theorem binaryPower_succ (x : Residue m) (n : ℕ) :
    binaryPower x (n + 1) = binaryPower x n * x := by
  let _ := mulMonoid (m := m)
  calc binaryPower x (n + 1) = NPow.npow (n + 1) x := binaryPower_eq_pow x (n + 1)
    _ = NPow.npow n x * x := Monoid.npow_succ n x
    _ = binaryPower x n * x := congrArg (· * x) (binaryPower_eq_pow x n).symm

/-- Residues form a commutative ring. -/
instance : CommRing (Residue m) where
  add_assoc a b c := toZMod_injective (by simp only [toZMod_add, add_assoc])
  zero_add a := toZMod_injective (by simp only [toZMod_add, toZMod_zero, zero_add])
  add_zero a := toZMod_injective (by simp only [toZMod_add, toZMod_zero, add_zero])
  add_comm a b := toZMod_injective (by simp only [toZMod_add, add_comm])
  nsmul := nsmulRec
  zsmul := zsmulRec
  neg_add_cancel a := toZMod_injective (by
    simp only [toZMod_add, toZMod_neg, toZMod_zero, neg_add_cancel])
  sub_eq_add_neg a b := toZMod_injective (by
    simp only [toZMod_sub, toZMod_add, toZMod_neg, sub_eq_add_neg])
  mul_assoc a b c := toZMod_injective (by simp only [toZMod_mul, mul_assoc])
  one_mul a := toZMod_injective (by simp only [toZMod_mul, toZMod_one, one_mul])
  mul_one a := toZMod_injective (by simp only [toZMod_mul, toZMod_one, mul_one])
  mul_comm a b := toZMod_injective (by simp only [toZMod_mul, mul_comm])
  zero_mul a := toZMod_injective (by simp only [toZMod_mul, toZMod_zero, zero_mul])
  mul_zero a := toZMod_injective (by simp only [toZMod_mul, toZMod_zero, mul_zero])
  left_distrib a b c := toZMod_injective (by simp only [toZMod_mul, toZMod_add, mul_add])
  right_distrib a b c := toZMod_injective (by simp only [toZMod_mul, toZMod_add, add_mul])
  natCast_zero := rfl
  natCast_succ n := toZMod_injective (by
    rw [toZMod_add, toZMod_one]
    exact (toZMod_ofNat (n + 1)).trans
      ((Nat.cast_succ n).trans (congrArg (· + 1) (toZMod_ofNat n).symm)))
  intCast_ofNat n := toZMod_injective (by
    exact (toZMod_ofInt (n : ℤ)).trans ((Int.cast_natCast n).trans (toZMod_ofNat n).symm))
  intCast_negSucc n := toZMod_injective (by
    rw [toZMod_neg]
    exact (toZMod_ofInt (Int.negSucc n)).trans
      ((Int.cast_negSucc n).trans (congrArg Neg.neg (toZMod_ofNat (n + 1)).symm)))
  npow n x := binaryPower x n
  npow_zero x := binaryPower_zero x
  npow_succ n x := binaryPower_succ x n

/-- The embedding into `ZMod m` as a homomorphism of rings. -/
def toZModHom : Residue m →+* ZMod m where
  toFun := toZMod
  map_zero' := toZMod_zero
  map_one' := toZMod_one
  map_add' := toZMod_add
  map_mul' := toZMod_mul

/-- The class of a number is its cast. -/
theorem ofNat_eq_natCast (n : ℕ) : ofNat m n = (n : Residue m) := rfl

/-- Casting back the representative gives the residue. -/
@[simp] theorem natCast_val (a : Residue m) : ((a.val : ℕ) : Residue m) = a :=
  Residue.ext (Nat.mod_eq_of_lt a.val_lt)

theorem val_natCast (n : ℕ) : ((n : Residue m)).val = n % m := rfl

theorem natCast_eq_natCast_iff (a b : ℕ) : (a : Residue m) = b ↔ a % m = b % m :=
  ⟨fun h => congrArg Residue.val h, fun h => Residue.ext h⟩

end Residue

/-- A prime modulus other than two. -/
class OddPrime (m : ℕ) : Prop where
  /-- It is prime. -/
  prime : m.Prime
  /-- It is not two. -/
  two_lt : 2 < m

namespace Residue

variable {m : ℕ} [Modulus m] [OddPrime m]

theorem mul_inv_cancel_of_ne_zero {a : Residue m} (ha : a ≠ 0) : a * a⁻¹ = 1 := by
  have : Fact m.Prime := ⟨OddPrime.prime⟩
  have hm : m - 2 + 1 = m - 1 := by have := OddPrime.two_lt (m := m); omega
  have hne : a.toZMod ≠ 0 := fun h => ha (toZMod_injective (h.trans toZMod_zero.symm))
  have hinv : a⁻¹ = a ^ (m - 2) := rfl
  refine toZMod_injective ?_
  calc (a * a⁻¹).toZMod = toZModHom (a * a ^ (m - 2)) := by rw [hinv]; rfl
    _ = a.toZMod ^ (m - 2 + 1) := by
      rw [map_mul, pow_succ', map_pow toZModHom a (m - 2)]; rfl
    _ = (1 : Residue m).toZMod := by rw [hm, ZMod.pow_card_sub_one_eq_one hne, toZMod_one]

/-- Modulo an odd prime, residues form a field. -/
instance : Field (Residue m) where
  div_eq_mul_inv a b := rfl
  exists_pair_ne := ⟨0, 1, fun h => by
    have h1 := congrArg Residue.val h
    have h2 := OddPrime.two_lt (m := m)
    change 0 % m = 1 % m at h1
    rw [Nat.zero_mod, Nat.mod_eq_of_lt (by omega)] at h1
    exact Nat.zero_ne_one h1⟩
  mul_inv_cancel a := mul_inv_cancel_of_ne_zero
  inv_zero := by
    have h := OddPrime.two_lt (m := m)
    change (0 : Residue m) ^ (m - 2) = 0
    exact zero_pow (by omega)
  nnqsmul := _
  qsmul := _

end Residue

end MerkleSnark
