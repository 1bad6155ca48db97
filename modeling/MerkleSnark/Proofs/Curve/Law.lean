import Mathlib
import MerkleSnark.Curve.Point
import MerkleSnark.Proofs.Curve.Group

/-!
# The group of a curve

A projective triple stands for a point of the curve `y² = x³ + b`, and the projective formulas
compute the group law of that curve, whichever triple stands for a point.  The curve has to be
smooth; nothing is said about the order of its points.

## Main definitions

* `Point.curve` — the curve as one in Weierstrass form.
* `Point.Represents` — a triple stands for a point of the curve.
* `Point.element` — the point that a triple stands for.

## Main results

* `Point.onCurve_iff` — the triples that stand for a point are those that satisfy the equation.
* `Represents.add`, `Represents.double`, `Represents.neg` — the formulas follow the group law.
* `Point.element_add`, `Point.element_double`, `Point.element_neg` — the same for the point that a
  triple stands for.
-/

namespace MerkleSnark.Point

variable {F : Type} [Field F] {b : F}

/-- The curve `y² = x³ + b`. -/
def curve (b : F) : WeierstrassCurve.Affine F where
  a₁ := 0
  a₂ := 0
  a₃ := 0
  a₄ := 0
  a₆ := b

/-- The triple stands for the point: `z = 0` for the one at infinity, and the common denominator of
the affine coordinates for every other. -/
def Represents (p : Point F) : (curve b).Point → Prop
  | .zero => p.z = 0
  | .some x y _ => p.z ≠ 0 ∧ p.x = x * p.z ∧ p.y = y * p.z

theorem equation_curve_iff {x y : F} : (curve b).Equation x y ↔ y * y = x * x * x + b := by
  rw [WeierstrassCurve.Affine.equation_iff]
  simp only [curve, zero_mul, add_zero]
  ring_nf

theorem negY_curve (x y : F) : (curve b).negY x y = -y := by
  simp [WeierstrassCurve.Affine.negY, curve]

theorem Δ_curve (b : F) : (curve b).Δ = -(2 ^ 4 * 3 ^ 3 * b ^ 2) := by
  simp only [WeierstrassCurve.Δ, WeierstrassCurve.b₂, WeierstrassCurve.b₄, WeierstrassCurve.b₆,
    WeierstrassCurve.b₈, curve]
  ring

/-- The curve is smooth where two, three and the constant are not zero. -/
theorem Δ_curve_ne_zero (htwo : (2 : F) ≠ 0) (hthree : (3 : F) ≠ 0) (hb : b ≠ 0) :
    (curve b).Δ ≠ 0 := by
  rw [Δ_curve, neg_ne_zero]
  positivity

theorem onCurve_iff_of_ne_zero {p : Point F} (hz : p.z ≠ 0) :
    p.OnCurve b ↔ (curve b).Equation (p.x / p.z) (p.y / p.z) := by
  rw [equation_curve_iff, OnCurve, or_iff_right hz]
  constructor
  · intro h
    field_simp
    linear_combination h
  · intro h
    field_simp at h
    linear_combination h

namespace Represents

variable {p q : Point F} {P Q : (curve b).Point}

/-- A triple stands for one point only. -/
theorem unique (hP : Represents p P) (hQ : Represents p Q) : P = Q := by
  cases P with
  | zero =>
    cases Q with
    | zero => rfl
    | some x y hxy => exact absurd hP hQ.1
  | some x y hxy =>
    cases Q with
    | zero => exact absurd hQ hP.1
    | some x' y' hxy' =>
      obtain ⟨hz, hx, hy⟩ := hP
      obtain ⟨-, hx', hy'⟩ := hQ
      obtain rfl : x = x' := mul_right_cancel₀ hz (hx.symm.trans hx')
      obtain rfl : y = y' := mul_right_cancel₀ hz (hy.symm.trans hy')
      rfl

theorem infinity : Represents (Point.infinity : Point F) (0 : (curve b).Point) := rfl

theorem ofAffine {x y : F} (h : (curve b).Nonsingular x y) :
    Represents (Point.ofAffine x y) (.some x y h : (curve b).Point) :=
  ⟨one_ne_zero, (mul_one x).symm, (mul_one y).symm⟩

theorem onCurve (h : Represents p P) : p.OnCurve b := by
  cases P with
  | zero => exact Or.inl h
  | some x y hxy =>
    obtain ⟨hz, hx, hy⟩ := h
    rw [onCurve_iff_of_ne_zero hz, hx, hy, mul_div_cancel_right₀ _ hz, mul_div_cancel_right₀ _ hz]
    exact hxy.1

theorem isInfinity_iff [DecidableEq F] (h : Represents p P) : p.isInfinity = true ↔ P = 0 := by
  rw [isInfinity, decide_eq_true_iff]
  cases P with
  | zero => exact iff_of_true h rfl
  | some x y hxy => exact iff_of_false h.1 (WeierstrassCurve.Affine.Point.some_ne_zero hxy)

theorem neg (h : Represents p P) : Represents p.neg (-P) := by
  cases P with
  | zero => exact h
  | some x y hxy =>
    obtain ⟨hz, hx, hy⟩ := h
    rw [WeierstrassCurve.Affine.Point.neg_some]
    refine ⟨hz, hx, ?_⟩
    rw [negY_curve, neg_mul]
    exact congrArg Neg.neg hy

variable [DecidableEq F]

/-- **The tangent formula** doubles a point; at a point of order two it gives a triple at
infinity. -/
theorem double (htwo : (2 : F) ≠ 0) (h : Represents p P) : Represents p.double (P + P) := by
  cases P with
  | zero =>
    change p.z = 0 at h
    change (Point.double p).z = 0
    simp only [Point.double, twice, h]
    ring
  | some x y hxy =>
    obtain ⟨hz, hx, hy⟩ := h
    by_cases hzero : y = 0
    · rw [WeierstrassCurve.Affine.Point.add_self_of_Y_eq (by rw [negY_curve, hzero, neg_zero])]
      change (Point.double p).z = 0
      simp only [Point.double, twice, hy, hzero]
      ring
    · -- twice the ordinate is not zero, so that there is a tangent with a slope
      have hne : y ≠ (curve b).negY x y := by
        rw [negY_curve]
        intro heq
        have hsum : 2 * y = 0 := by linear_combination heq
        exact hzero ((mul_eq_zero.mp hsum).resolve_left htwo)
      have hslope : (curve b).slope x x y y = 3 * (x * x) / (2 * y) := by
        rw [WeierstrassCurve.Affine.slope_of_Y_ne rfl hne, negY_curve]
        simp only [curve]
        ring_nf
      rw [WeierstrassCurve.Affine.Point.add_self_of_Y_ne hne]
      refine ⟨?_, ?_, ?_⟩
      · have hthird : (Point.double p).z = 2 ^ 3 * y ^ 3 * p.z ^ 6 := by
          simp only [Point.double, twice, hy]
          ring
        rw [hthird]
        positivity
      · simp only [WeierstrassCurve.Affine.addX, hslope, Point.double, twice, hx, hy]
        simp only [curve]
        field_simp
        ring
      · simp only [WeierstrassCurve.Affine.addY, WeierstrassCurve.Affine.negAddY,
          WeierstrassCurve.Affine.addX, negY_curve, hslope, Point.double, twice, hx, hy]
        simp only [curve]
        field_simp
        ring

/-- **The chord formula** adds points of different abscissas. -/
theorem add_of_ne {x₁ y₁ x₂ y₂ : F} {h₁ : (curve b).Nonsingular x₁ y₁}
    {h₂ : (curve b).Nonsingular x₂ y₂} (hP : Represents p (.some x₁ y₁ h₁))
    (hQ : Represents q (.some x₂ y₂ h₂)) (hne : x₁ ≠ x₂) :
    Represents (p.add q) (.some x₁ y₁ h₁ + .some x₂ y₂ h₂ : (curve b).Point) := by
  obtain ⟨hzP, hxP, hyP⟩ := hP
  obtain ⟨hzQ, hxQ, hyQ⟩ := hQ
  have hsub : x₂ - x₁ ≠ 0 := sub_ne_zero.mpr (Ne.symm hne)
  have hsub' : x₁ - x₂ ≠ 0 := sub_ne_zero.mpr hne
  have hchord : ¬ q.x * p.z = p.x * q.z := by
    intro heq
    refine hne (mul_right_cancel₀ (mul_ne_zero hzP hzQ) ?_)
    rw [hxP, hxQ] at heq
    linear_combination -heq
  have hslope : (curve b).slope x₁ x₂ y₁ y₂ = (y₁ - y₂) / (x₁ - x₂) :=
    WeierstrassCurve.Affine.slope_of_X_ne hne
  rw [WeierstrassCurve.Affine.Point.add_of_X_ne hne]
  simp only [Point.add, if_neg hzQ, if_neg hzP, if_neg hchord]
  refine ⟨?_, ?_, ?_⟩
  · simp only [hxP, hxQ]
    have hthird : (x₂ * q.z * p.z - x₁ * p.z * q.z) = (x₂ - x₁) * (q.z * p.z) := by ring
    rw [hthird]
    positivity
  · simp only [WeierstrassCurve.Affine.addX, hslope, twice, hxP, hxQ, hyP, hyQ]
    simp only [curve]
    field_simp
    ring
  · simp only [WeierstrassCurve.Affine.addY, WeierstrassCurve.Affine.negAddY,
      WeierstrassCurve.Affine.addX, negY_curve, hslope, twice, hxP, hxQ, hyP, hyQ]
    simp only [curve]
    field_simp
    ring

/-- **The formulas follow the group law**, in every case that they tell apart. -/
theorem add (htwo : (2 : F) ≠ 0) (hP : Represents p P) (hQ : Represents q Q) :
    Represents (p.add q) (P + Q) := by
  cases Q with
  | zero =>
    change q.z = 0 at hQ
    rw [← WeierstrassCurve.Affine.Point.zero_def, add_zero, Point.add, if_pos hQ]
    exact hP
  | some x₂ y₂ h₂ =>
    cases P with
    | zero =>
      change p.z = 0 at hP
      rw [← WeierstrassCurve.Affine.Point.zero_def, zero_add, Point.add, if_neg hQ.1, if_pos hP]
      exact hQ
    | some x₁ y₁ h₁ =>
      by_cases hx : x₁ = x₂
      · subst hx
        obtain ⟨hzP, hxP, hyP⟩ := hP
        obtain ⟨hzQ, hxQ, hyQ⟩ := hQ
        have hchord : q.x * p.z = p.x * q.z := by rw [hxP, hxQ]; ring
        have hz : p.z * q.z ≠ 0 := mul_ne_zero hzP hzQ
        simp only [Point.add, if_neg hzQ, if_neg hzP, if_pos hchord]
        by_cases hy : y₁ = y₂
        · subst hy
          rw [if_pos (by rw [hyP, hyQ]; ring)]
          exact double htwo ⟨hzP, hxP, hyP⟩
        · -- the ordinates are opposite, as both points satisfy the equation
          have hopposite : y₁ = (curve b).negY x₁ y₂ :=
            (WeierstrassCurve.Affine.Y_eq_of_X_eq h₁.1 h₂.1 rfl).resolve_left hy
          rw [if_neg, WeierstrassCurve.Affine.Point.add_of_Y_eq rfl hopposite]
          · exact infinity
          · intro heq
            refine hy (mul_right_cancel₀ hz ?_)
            rw [hyP, hyQ] at heq
            linear_combination -heq
      · exact add_of_ne hP hQ hx

end Represents

/-- **The triples that stand for a point** of a smooth curve are those that satisfy the equation. -/
theorem onCurve_iff (hb : (curve b).Δ ≠ 0) {p : Point F} :
    p.OnCurve b ↔ ∃ P : (curve b).Point, Represents p P := by
  constructor
  · intro h
    by_cases hz : p.z = 0
    · exact ⟨.zero, hz⟩
    · have hequation := (onCurve_iff_of_ne_zero hz).mp h
      have hsmooth :=
        (WeierstrassCurve.Affine.equation_iff_nonsingular_of_Δ_ne_zero hb).mp hequation
      exact ⟨.some _ _ hsmooth, hz, (div_mul_cancel₀ _ hz).symm, (div_mul_cancel₀ _ hz).symm⟩
  · rintro ⟨P, hP⟩
    exact hP.onCurve

open Classical in
/-- The point of the curve that a triple stands for; for other triples the one at infinity. -/
noncomputable def element (b : F) (p : Point F) : (curve b).Point :=
  if h : ∃ P : (curve b).Point, Represents p P then h.choose else 0

theorem Represents.element_eq {p : Point F} {P : (curve b).Point} (h : Represents p P) :
    p.element b = P := by
  have hsome : ∃ P : (curve b).Point, Represents p P := ⟨P, h⟩
  rw [element, dif_pos hsome]
  exact hsome.choose_spec.unique h

theorem represents_element (hb : (curve b).Δ ≠ 0) {p : Point F} (h : p.OnCurve b) :
    Represents p (p.element b) := by
  obtain ⟨P, hP⟩ := (onCurve_iff hb).mp h
  rwa [hP.element_eq]

variable {p q : Point F}

theorem element_infinity : (infinity : Point F).element b = 0 := Represents.infinity.element_eq

theorem onCurve_infinity : (infinity : Point F).OnCurve b := Or.inl rfl

theorem element_neg (hb : (curve b).Δ ≠ 0) (hp : p.OnCurve b) :
    p.neg.OnCurve b ∧ p.neg.element b = -p.element b := by
  have h := (represents_element hb hp).neg
  exact ⟨h.onCurve, h.element_eq⟩

variable [DecidableEq F]

/-- Addition of triples is addition of points. -/
theorem element_add (htwo : (2 : F) ≠ 0) (hb : (curve b).Δ ≠ 0) (hp : p.OnCurve b)
    (hq : q.OnCurve b) :
    (p.add q).OnCurve b ∧ (p.add q).element b = p.element b + q.element b := by
  have h := (represents_element hb hp).add htwo (represents_element hb hq)
  exact ⟨h.onCurve, h.element_eq⟩

theorem element_double (htwo : (2 : F) ≠ 0) (hb : (curve b).Δ ≠ 0) (hp : p.OnCurve b) :
    p.double.OnCurve b ∧ p.double.element b = p.element b + p.element b := by
  have h := (represents_element hb hp).double htwo
  exact ⟨h.onCurve, h.element_eq⟩

theorem isInfinity_iff_element (hb : (curve b).Δ ≠ 0) (hp : p.OnCurve b) :
    p.isInfinity = true ↔ p.element b = 0 := (represents_element hb hp).isInfinity_iff

end MerkleSnark.Point
