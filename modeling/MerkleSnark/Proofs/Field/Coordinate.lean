import Mathlib
import MerkleSnark.Curve.Coordinate
import MerkleSnark.Proofs.Field.Primality
import MerkleSnark.Proofs.Field.Residue

/-!
# The coordinates form fields

The characteristic is prime and leaves the remainder three modulo four, so `-1` has no square root
in the prime field, and the norm of the quadratic extension is zero at zero alone.

## Main results

* `prime_baseOrder` — the characteristic is prime.
* `Fq2.norm_eq_zero_iff` — the norm sends nothing but zero to zero.
* The instances `Field Fq` and `Field Fq2`.
-/

namespace MerkleSnark

/-! ### The prime field -/

/-- The large factors of the characteristic less one, those of these factors less one, and the
characteristic itself. -/
def baseChain : List LucasStep :=
  [⟨11465965001, 3, [2, 2, 2, 5, 5, 5, 5, 7, 327599]⟩,
    ⟨173171039, 13, [2, 73, 89, 13327]⟩,
    ⟨1263766531, 10, [2, 3, 5, 13, 911, 3557]⟩,
    ⟨35385462869, 2, [2, 2, 7, 1263766531]⟩,
    ⟨2480874801745591, 6, [2, 3, 3, 5, 19, 41, 35385462869]⟩,
    ⟨13427688667394608761327070753331941386769, 17,
      [2, 2, 2, 2, 3, 7, 11, 1853641, 4562087, 173171039, 2480874801745591]⟩,
    ⟨baseOrder, 3, [2, 3, 3, 13, 29, 67, 229, 311, 983, 11003, 405928799, 11465965001,
      13427688667394608761327070753331941386769]⟩]

/-- **The characteristic of the coordinates is prime.** -/
theorem prime_baseOrder : baseOrder.Prime := by
  have hsmall : ∀ q ∈ [2, 3, 5, 7, 11, 13, 19, 29, 41, 67, 73, 89, 229, 311, 911, 983, 3557, 11003,
      13327, 327599, 1853641, 4562087], q.Prime := by
    norm_num
  have hchain : ∀ p ∈ baseChain.map LucasStep.number, p.Prime :=
    prime_of_lucasChain 254 (List.forall_mem_cons.mpr ⟨prime_405928799, hsmall⟩) (by decide +kernel)
  exact hchain _ (by simp [baseChain])

instance : OddPrime baseOrder := ⟨prime_baseOrder, by decide⟩

namespace Fq

/-- A sum of two squares is zero only when both are. -/
theorem eq_zero_of_mul_self_add_mul_self {a b : Fq} (h : a * a + b * b = 0) : a = 0 ∧ b = 0 := by
  have hprime : Fact baseOrder.Prime := ⟨prime_baseOrder⟩
  have hb : b = 0 := by
    by_contra hne
    -- otherwise the quotient is a square root of -1
    have hsquare : (a / b) ^ 2 = -1 := by
      field_simp
      linear_combination h
    have hzmod : (a / b).toZMod ^ 2 = -1 := by
      have hcast := congrArg (Residue.toZModHom (m := baseOrder)) hsquare
      rwa [map_pow, map_neg, map_one] at hcast
    exact ZMod.mod_four_ne_three_of_sq_eq_neg_one hzmod (by decide)
  refine ⟨?_, hb⟩
  rw [hb, mul_zero, add_zero] at h
  exact mul_self_eq_zero.mp h

end Fq

/-! ### The quadratic extension -/

namespace Fq2

variable {a b : Fq2}

theorem norm_eq_zero_iff : a.norm = 0 ↔ a = 0 := by
  constructor
  · intro h
    obtain ⟨hre, him⟩ := Fq.eq_zero_of_mul_self_add_mul_self h
    exact Fq2.ext hre him
  · rintro rfl
    rfl

@[simp] theorem re_zero : (0 : Fq2).re = 0 := rfl
@[simp] theorem im_zero : (0 : Fq2).im = 0 := rfl
@[simp] theorem re_one : (1 : Fq2).re = 1 := rfl
@[simp] theorem im_one : (1 : Fq2).im = 0 := rfl
@[simp] theorem re_neg (a : Fq2) : (-a).re = -a.re := rfl
@[simp] theorem im_neg (a : Fq2) : (-a).im = -a.im := rfl
@[simp] theorem re_sub (a b : Fq2) : (a - b).re = a.re - b.re := rfl
@[simp] theorem im_sub (a b : Fq2) : (a - b).im = a.im - b.im := rfl

/-- The multiplication alone, with which powers are identified. -/
@[reducible] def mulMonoid : CommMonoid Fq2 where
  mul_assoc a b c := Fq2.ext (by simp; ring) (by simp; ring)
  one_mul a := Fq2.ext (by simp) (by simp)
  mul_one a := Fq2.ext (by simp) (by simp)
  mul_comm a b := Fq2.ext (by simp; ring) (by simp; ring)

theorem binaryPower_zero (x : Fq2) : binaryPower x 0 = 1 := by rw [binaryPower, if_pos rfl]

theorem binaryPower_succ (x : Fq2) (n : ℕ) : binaryPower x (n + 1) = binaryPower x n * x := by
  let _ := mulMonoid
  calc binaryPower x (n + 1) = NPow.npow (n + 1) x := binaryPower_eq_pow x (n + 1)
    _ = NPow.npow n x * x := Monoid.npow_succ n x
    _ = binaryPower x n * x := congrArg (· * x) (binaryPower_eq_pow x n).symm

/-- The pairs form a commutative ring. -/
instance : CommRing Fq2 where
  add_assoc a b c := Fq2.ext (by simp [add_assoc]) (by simp [add_assoc])
  zero_add a := Fq2.ext (by simp) (by simp)
  add_zero a := Fq2.ext (by simp) (by simp)
  add_comm a b := Fq2.ext (by simp [add_comm]) (by simp [add_comm])
  nsmul := nsmulRec
  zsmul := zsmulRec
  neg_add_cancel a := Fq2.ext (by simp) (by simp)
  sub_eq_add_neg a b := Fq2.ext (by simp [sub_eq_add_neg]) (by simp [sub_eq_add_neg])
  mul_assoc := mulMonoid.mul_assoc
  one_mul := mulMonoid.one_mul
  mul_one := mulMonoid.mul_one
  mul_comm := mulMonoid.mul_comm
  zero_mul a := Fq2.ext (by simp) (by simp)
  mul_zero a := Fq2.ext (by simp) (by simp)
  left_distrib a b c := Fq2.ext (by simp; ring) (by simp; ring)
  right_distrib a b c := Fq2.ext (by simp; ring) (by simp; ring)
  npow n x := binaryPower x n
  npow_zero x := binaryPower_zero x
  npow_succ n x := binaryPower_succ x n

theorem mul_inv_cancel_of_ne_zero (ha : a ≠ 0) : a * a⁻¹ = 1 := by
  have hnorm : a.norm ≠ 0 := fun h => ha (norm_eq_zero_iff.mp h)
  have hre : (a⁻¹).re = a.norm⁻¹ * a.re := rfl
  have him : (a⁻¹).im = a.norm⁻¹ * -a.im := rfl
  refine Fq2.ext ?_ ?_
  · rw [re_mul, hre, him, re_one]
    calc a.re * (a.norm⁻¹ * a.re) - a.im * (a.norm⁻¹ * -a.im) = a.norm⁻¹ * a.norm := by
          rw [norm]; ring
      _ = 1 := inv_mul_cancel₀ hnorm
  · rw [im_mul, hre, him, im_one]
    ring

/-- **The pairs form a field.** -/
instance : Field Fq2 where
  div_eq_mul_inv a b := rfl
  exists_pair_ne := ⟨0, 1, by decide⟩
  mul_inv_cancel a := mul_inv_cancel_of_ne_zero
  inv_zero := by
    refine Fq2.ext ?_ ?_
    · exact mul_zero _
    · change (0 : Fq2).norm⁻¹ * -(0 : Fq) = 0
      rw [neg_zero, mul_zero]
  nnqsmul := _
  qsmul := _

end Fq2

end MerkleSnark
