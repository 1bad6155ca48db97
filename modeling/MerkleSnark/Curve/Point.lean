/-!
# Projective points

Points of a curve `y² z = x³ + b z³` in projective coordinates: `(x, y, z)` stands for the affine
point `(x / z, y / z)`, and a point with `z = 0` for the point at infinity.  The formulas never
divide and do not check that a point is on its curve.

## Main definitions

* `Point` — a projective triple.
* `Point.infinity`, `Point.neg`, `Point.double`, `Point.add` — the group operations.
* `Point.same` — comparison by cross-multiplication.
* `Point.OnCurve` — the curve equation.
* `Point.affine` — the affine coordinates of a finite point.
-/

namespace MerkleSnark

/-- A projective triple. -/
@[ext] structure Point (F : Type) where
  /-- The affine abscissa times `z`. -/
  x : F
  /-- The affine ordinate times `z`. -/
  y : F
  /-- The common denominator, zero at infinity. -/
  z : F
  deriving DecidableEq, Repr

namespace Point

variable {F : Type} [Add F] [Sub F] [Mul F] [Neg F] [Zero F] [One F] [DecidableEq F]

/-- The representative `(1, 1, 0)` of the point at infinity. -/
@[inline] def infinity : Point F := ⟨1, 1, 0⟩

/-- Whether the point is at infinity. -/
@[specialize] def isInfinity (p : Point F) : Bool := p.z = 0

/-- The inverse point, its reflection in the axis. -/
@[specialize] def neg (p : Point F) : Point F := ⟨p.x, -p.y, p.z⟩

/-- Twice a coordinate. -/
@[inline] def twice (a : F) : F := a + a

/-- The tangent formula.  It is applied to points at infinity as well and keeps `z = 0`. -/
@[specialize] def double (p : Point F) : Point F :=
  let xx := p.x * p.x
  let w := twice xx + xx
  let s := p.y * p.z
  let b := p.x * p.y * s
  let h := w * w - twice (twice (twice b))
  let ys := p.y * s
  ⟨twice (h * s), w * (twice (twice b) - h) - twice (twice (twice (ys * ys))),
    twice (twice (twice (s * (s * s))))⟩

/-- The sum: the other operand when one is at infinity, the tangent formula for two equal points,
infinity for two points that differ in the ordinate alone, and the chord formula otherwise. -/
@[specialize] def add (p q : Point F) : Point F :=
  if q.z = 0 then p
  else if p.z = 0 then q
  else
    let u2 := p.y * q.z
    let u1 := q.y * p.z
    let v2 := p.x * q.z
    let v1 := q.x * p.z
    if v1 = v2 then
      if u1 = u2 then double p else infinity
    else
      let u := u1 - u2
      let v := v1 - v2
      let vv := v * v
      let vvv := v * vv
      let w := p.z * q.z
      let a := u * u * w - vvv - twice (vv * v2)
      ⟨v * a, u * (vv * v2 - a) - vvv * u2, vvv * w⟩

/-- Comparison by cross-multiplication with the denominators. -/
@[specialize] def same (p q : Point F) : Bool :=
  p.x * q.z = q.x * p.z ∧ p.y * q.z = q.y * p.z

/-- The curve equation `y² z = x³ + b z³`, which every point at infinity is taken to satisfy. -/
def OnCurve (b : F) (p : Point F) : Prop :=
  p.z = 0 ∨ p.y * p.y * p.z - p.x * p.x * p.x = b * (p.z * p.z * p.z)

instance (b : F) (p : Point F) : Decidable (p.OnCurve b) := by
  unfold OnCurve; infer_instance

/-- The affine coordinates `(x / z, y / z)` of a finite point. -/
@[specialize] def affine [Inv F] (p : Point F) : F × F :=
  let d := p.z⁻¹
  (p.x * d, p.y * d)

/-- The point with given affine coordinates. -/
@[inline] def ofAffine (x y : F) : Point F := ⟨x, y, 1⟩

end Point

end MerkleSnark
