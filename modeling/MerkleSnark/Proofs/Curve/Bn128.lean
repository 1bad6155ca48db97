import Mathlib
import MerkleSnark.Curve.Bn128
import MerkleSnark.Proofs.Curve.Law
import MerkleSnark.Proofs.Field.Coordinate

/-!
# The groups of bn128

Both curves are smooth, so the projective formulas compute in their groups, and both generators have
the order of the scalars.  That this multiple of a generator is zero is checked by evaluating
double-and-add.

## Main definitions

* `PointGroup.multipleWithin` — double-and-add for factors of a number of binary digits.
* `G1.model`, `G2.model` — triples read as points of the curves.

## Main results

* `G1.addOrderOf_base`, `G2.addOrderOf_base` — the order of the generators.
* `G2.inSubgroup_iff` — the check of a point of the second group is about its order.
-/

namespace MerkleSnark

namespace PointGroup

variable {P : Type} [PointGroup P]

/-- Double-and-add by recursion on the number of binary digits of the factor. -/
def multipleWithin (p : P) : ℕ → ℕ → P
  | 0, _ => infinity
  | bits + 1, n =>
    if n = 0 then infinity
    else if n = 1 then p
    else if n % 2 = 0 then multipleWithin (double p) bits (n / 2)
    else add (multipleWithin (double p) bits (n / 2)) p

theorem multiple_eq_multipleWithin {bits n : ℕ} (hn : n < 2 ^ bits) (p : P) :
    multiple p n = multipleWithin p bits n := by
  induction bits generalizing n p with
  | zero =>
    have hzero : n = 0 := by simpa using hn
    rw [multiple, if_pos hzero, multipleWithin]
  | succ bits ih =>
    have hhalf : n / 2 < 2 ^ bits := by rw [pow_succ] at hn; omega
    rw [multiple, multipleWithin, ih hhalf (double p)]

/-- The generator has the order of the scalars when double-and-add says that this multiple of it is
zero, as the order is prime. -/
theorem Model.addOrderOf_base {A : Type} [AddCommGroup A] (L : Model P A)
    (hmultiple : isInfinity (multipleWithin (generator : P) 254 scalarOrder) = true)
    (hgenerator : isInfinity (generator : P) = false) : addOrderOf L.base = scalarOrder := by
  have hprime : Fact scalarOrder.Prime := ⟨prime_scalarOrder⟩
  have hbase : L.Denotes (generator : P) L.base := Model.Denotes.generator
  refine addOrderOf_eq_prime ?_ fun hzero => ?_
  · rwa [← (hbase.multiple scalarOrder).isInfinity_iff,
      multiple_eq_multipleWithin (show scalarOrder < 2 ^ 254 by decide)]
  · rw [hbase.isInfinity_iff.mpr hzero] at hgenerator
    exact Bool.noConfusion hgenerator

end PointGroup

open PointGroup

/-! ### The first group -/

namespace G1

theorem two_ne_zero : (2 : Fq) ≠ 0 := by decide

theorem Δ_ne_zero : (Point.curve coefficient).Δ ≠ 0 :=
  Point.Δ_curve_ne_zero two_ne_zero (by decide) (by decide)

theorem onCurve_base : base.OnCurve coefficient := by decide

/-- Triples read as points of the first curve. -/
noncomputable def model : Model G1 (Point.curve coefficient).Point where
  Valid p := p.OnCurve coefficient
  value p := p.element coefficient
  valid_generator := onCurve_base
  infinity := ⟨Point.onCurve_infinity, Point.element_infinity⟩
  add hp hq := Point.element_add two_ne_zero Δ_ne_zero hp hq
  double hp := Point.element_double two_ne_zero Δ_ne_zero hp
  neg hp := Point.element_neg Δ_ne_zero hp
  isInfinity_iff hp := Point.isInfinity_iff_element Δ_ne_zero hp

/-- **The order of the generator** of the first group. -/
theorem addOrderOf_base : addOrderOf model.base = scalarOrder :=
  model.addOrderOf_base (by decide +kernel) (by decide)

end G1

/-! ### The second group -/

namespace G2

theorem two_ne_zero : (2 : Fq2) ≠ 0 := by decide

theorem coefficient_ne_zero : coefficient ≠ 0 :=
  div_ne_zero (by decide) (by decide)

theorem Δ_ne_zero : (Point.curve coefficient).Δ ≠ 0 :=
  Point.Δ_curve_ne_zero two_ne_zero (by decide) coefficient_ne_zero

/-- The equation of the twist, with the division in its constant cleared. -/
theorem onCurve_iff_of_ne_zero {p : G2} (hz : p.z ≠ 0) :
    p.OnCurve coefficient ↔
      (p.y * p.y * p.z - p.x * p.x * p.x) * Fq2.xi = (⟨(3 : ℕ), 0⟩ : Fq2) * (p.z * p.z * p.z) := by
  have hxi : Fq2.xi ≠ 0 := by decide
  rw [Point.OnCurve, or_iff_right hz, coefficient, div_mul_eq_mul_div, eq_div_iff hxi]

theorem onCurve_base : base.OnCurve coefficient :=
  (onCurve_iff_of_ne_zero (by decide)).mpr (by decide)

/-- Triples read as points of the twist. -/
noncomputable def model : Model G2 (Point.curve coefficient).Point where
  Valid p := p.OnCurve coefficient
  value p := p.element coefficient
  valid_generator := onCurve_base
  infinity := ⟨Point.onCurve_infinity, Point.element_infinity⟩
  add hp hq := Point.element_add two_ne_zero Δ_ne_zero hp hq
  double hp := Point.element_double two_ne_zero Δ_ne_zero hp
  neg hp := Point.element_neg Δ_ne_zero hp
  isInfinity_iff hp := Point.isInfinity_iff_element Δ_ne_zero hp

/-- **The order of the generator** of the second group. -/
theorem addOrderOf_base : addOrderOf model.base = scalarOrder :=
  model.addOrderOf_base (by decide +kernel) (by decide)

/-- **The check of a point of the twist is about its order.** -/
theorem inSubgroup_iff {p : G2} (hp : p.OnCurve coefficient) :
    inSubgroup p = true ↔ scalarOrder • p.element coefficient = 0 := by
  have hdenotes : model.Denotes p (p.element coefficient) := ⟨hp, rfl⟩
  exact (hdenotes.multiple scalarOrder).isInfinity_iff

end G2

end MerkleSnark
