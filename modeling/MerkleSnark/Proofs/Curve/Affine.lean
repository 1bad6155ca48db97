import Mathlib
import MerkleSnark.Proofs.Curve.Law

/-!
# Points in affine coordinates

A point is written in affine coordinates, so what is read back is the triple with denominator one,
or the fixed representative of the point at infinity.  It stands for the same point of the curve.

## Main definitions

* `Point.normal` — the triple that is read back.
* `Point.SameAffine` — two triples are both at infinity or have the same affine coordinates.

## Main results

* `Represents.normal` — the triple that is read back stands for the same point.
* `sameAffine_normal` — its affine coordinates are those of the triple.
* `normal_eq_of_element_eq` — it is the same one for all triples that stand for one point.
-/

namespace MerkleSnark.Point

variable {F : Type} [Field F] [DecidableEq F] {b : F} {p q : Point F}

/-- The triple with denominator one, or the fixed representative of infinity. -/
def normal (p : Point F) : Point F :=
  if p.isInfinity then infinity else ofAffine p.affine.1 p.affine.2

/-- The same affine point: both at infinity, or equal affine coordinates. -/
def SameAffine (p q : Point F) : Prop :=
  p.isInfinity = q.isInfinity ∧ (p.isInfinity = false → p.affine = q.affine)

@[simp] theorem isInfinity_infinity : (infinity : Point F).isInfinity = true :=
  decide_eq_true rfl

@[simp] theorem isInfinity_ofAffine (x y : F) : (ofAffine x y).isInfinity = false :=
  decide_eq_false one_ne_zero

omit [DecidableEq F] in
@[simp] theorem affine_ofAffine (x y : F) : (ofAffine x y).affine = (x, y) := by
  simp [affine, ofAffine]

@[simp] theorem normal_infinity : (infinity : Point F).normal = infinity := by
  simp [normal]

@[simp] theorem normal_ofAffine (x y : F) : (ofAffine x y).normal = ofAffine x y := by
  simp [normal]

theorem normal_of_isInfinity (h : p.isInfinity = true) : p.normal = infinity := if_pos h

theorem normal_of_finite (h : p.isInfinity = false) :
    p.normal = ofAffine p.affine.1 p.affine.2 := by
  rw [normal, h]
  rfl

theorem sameAffine_normal (p : Point F) : p.SameAffine p.normal := by
  cases h : p.isInfinity with
  | true => simp [SameAffine, normal_of_isInfinity h, h]
  | false => simp [SameAffine, normal_of_finite h, h]

theorem SameAffine.symm (h : p.SameAffine q) : q.SameAffine p :=
  ⟨h.1.symm, fun hq => (h.2 (h.1.trans hq)).symm⟩

theorem SameAffine.trans {r : Point F} (hpq : p.SameAffine q) (hqr : q.SameAffine r) :
    p.SameAffine r :=
  ⟨hpq.1.trans hqr.1, fun hp => (hpq.2 hp).trans (hqr.2 (hpq.1.symm.trans hp))⟩

theorem sameAffine_of_normal_eq (h : p.normal = q.normal) : p.SameAffine q :=
  p.sameAffine_normal.trans (h ▸ q.sameAffine_normal.symm)

/-- Triples with the same affine coordinates are read back as the same one. -/
theorem sameAffine_iff : p.SameAffine q ↔ p.normal = q.normal := by
  refine ⟨fun h => ?_, sameAffine_of_normal_eq⟩
  cases hp : p.isInfinity with
  | true => rw [normal_of_isInfinity hp, normal_of_isInfinity (h.1 ▸ hp)]
  | false => rw [normal_of_finite hp, normal_of_finite (h.1 ▸ hp), h.2 hp]

omit [DecidableEq F] in
/-- The affine coordinates of a triple are those of the point that it stands for. -/
theorem Represents.affine_eq {x y : F} {hxy : (curve b).Nonsingular x y}
    (h : Represents p (.some x y hxy : (curve b).Point)) : p.affine = (x, y) := by
  obtain ⟨hz, hx, hy⟩ := h
  simp only [affine, hx, hy, mul_assoc, mul_inv_cancel₀ hz, mul_one]

/-- The triple that is read back stands for the same point. -/
theorem Represents.normal {P : (curve b).Point} (h : Represents p P) :
    Represents p.normal P := by
  cases hinf : p.isInfinity with
  | true =>
    rw [normal_of_isInfinity hinf, h.isInfinity_iff.mp hinf]
    exact infinity
  | false =>
    rw [normal_of_finite hinf]
    cases P with
    | zero => exact absurd (h.isInfinity_iff.mpr rfl) (by simp [hinf])
    | some x y hxy =>
      rw [h.affine_eq]
      exact ofAffine hxy

/-- Of all triples for one point, the same one is read back. -/
theorem Represents.normal_eq {P : (curve b).Point} (hp : Represents p P) (hq : Represents q P) :
    p.normal = q.normal := by
  cases P with
  | zero => rw [normal_of_isInfinity (decide_eq_true hp), normal_of_isInfinity (decide_eq_true hq)]
  | some x y hxy =>
    rw [normal_of_finite (decide_eq_false hp.1), normal_of_finite (decide_eq_false hq.1),
      hp.affine_eq, hq.affine_eq]

theorem normal_eq_of_element_eq (hb : (curve b).Δ ≠ 0) (hp : p.OnCurve b) (hq : q.OnCurve b)
    (h : p.element b = q.element b) : p.normal = q.normal :=
  (represents_element hb hp).normal_eq (h ▸ represents_element hb hq)

theorem onCurve_normal (hb : (curve b).Δ ≠ 0) (h : p.OnCurve b) : p.normal.OnCurve b := by
  obtain ⟨P, hP⟩ := (onCurve_iff hb).mp h
  exact hP.normal.onCurve

theorem element_normal (hb : (curve b).Δ ≠ 0) (h : p.OnCurve b) :
    p.normal.element b = p.element b := (represents_element hb h).normal.element_eq

end MerkleSnark.Point
