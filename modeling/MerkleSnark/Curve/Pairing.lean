import MerkleSnark.Curve.Tower

/-!
# The optimal ate pairing

The pairing of a point of the second group and one of the first.  A Miller loop multiplies the
values of lines through multiples of the first point, and a final power maps the product to a root
of unity.  Only products of pairings that are compared with one are ever needed, so the final power
is taken once per product.

Line values are kept as a numerator in `Fq12` and a denominator in `Fq2`.  Common factors of the two
from proper subfields are left out: the final power sends them to one.

## Main definitions

* `Pairing` — the operations of a pairing, as the proof system uses them.
* `pairingProductIsOne` — whether a product of pairings is one.
* `Ate.line`, `Ate.millerLoop`, `Ate.finalPower` — the pairing of bn128.
-/

namespace MerkleSnark

/-- Why two points cannot be paired. -/
inductive PairingError
  /-- The point of the second group is not on the twist. -/
  | offTwist
  /-- The point of the first group is not on the curve. -/
  | offCurve
  deriving DecidableEq, Repr

/-- The wording of a refused pairing. -/
def PairingError.message : PairingError → String
  | .offTwist => "Invalid input - point Q is not on the correct curve"
  | .offCurve => "Invalid input - point P is not on the correct curves"

/-- A pairing of the groups `P` and `Q`, with the final power taken apart. -/
class Pairing (P Q : Type) (T : outParam Type) where
  /-- The value of the loop, up to factors that the final power removes. -/
  miller : Q → P → Except PairingError T
  /-- The neutral target value. -/
  one : T
  /-- The product of target values. -/
  mul : T → T → T
  /-- Whether the final power of a target value is one. -/
  isUnit : T → Bool

/-- Whether the product of the pairings is one.  A refused pair ends the product. -/
def pairingProductIsOne {P Q T : Type} [Pairing P Q T] (pairs : List (Q × P)) :
    Except PairingError Bool := do
  let product ← pairs.foldlM (fun acc pair => do
      return Pairing.mul P Q acc (← Pairing.miller pair.1 pair.2))
    (Pairing.one P Q)
  return Pairing.isUnit P Q product

namespace Ate

/-- A value `num / den` of a line function. -/
structure Value where
  /-- The numerator. -/
  num : Fq12
  /-- The denominator; the value is zero when it is. -/
  den : Fq2

namespace Value

/-- The value one. -/
def one : Value := ⟨1, 1⟩

/-- The product. -/
def mul (f g : Value) : Value := ⟨f.num * g.num, f.den * g.den⟩

/-- The quotient, zero for a zero denominator. -/
def toFq12 (f : Value) : Fq12 := f.num.scale f.den⁻¹

end Value

/-- The line of slope `n / d` through `(x, y, z)`, at a point of the first group. -/
def lineOfSlope (n d : Fq2) (r : G2) (p : G1) : Value where
  num := .sparse
    (-(d * Fq2.scale p.y r.z))
    (n * Fq2.scale p.x r.z)
    (Fq2.scale p.z (d * r.y - n * r.x))
  den := d * Fq2.scale p.z r.z

/-- The line through two points of the second group at a point of the first: the chord, the tangent
where they coincide, and the vertical where they are opposite. -/
def line (r q : G2) (p : G1) : Value :=
  let n := q.y * r.z - r.y * q.z
  let d := q.x * r.z - r.x * q.z
  if d ≠ 0 then lineOfSlope n d r p
  else if n = 0 then
    let xx := r.x * r.x
    lineOfSlope (xx + xx + xx) (r.y * r.z + r.y * r.z) r p
  else ⟨.sparseEven (Fq2.scale p.x r.z) (-(Fq2.scale p.z r.x)), Fq2.scale p.z r.z⟩

/-- A signed digit of the loop count. -/
inductive Digit
  | plus
  | zero
  | minus
  deriving DecidableEq, Repr

/-- The digits of the loop count `29793968203157093288`, from the second highest down. -/
def loopDigits : List Digit :=
  "+0+00-0++000-00++00-00000+00-00+++0000-0+00-0++00+00-+00-0+0+000".toList.map fun
    | '+' => .plus
    | '-' => .minus
    | _ => .zero

/-- One round of the loop: the value is squared and the point doubled; a digit that is not zero
adds the point or its opposite. -/
def round (q : G2) (p : G1) (state : Value × G2) (digit : Digit) : Value × G2 :=
  let (f, r) := state
  let f := (f.mul f).mul (line r r p)
  let r := r.double
  match digit with
  | .zero => (f, r)
  | .plus => (f.mul (line r q p), r.add q)
  | .minus => (f.mul (line r q.neg p), r.add q.neg)

/-- The factor by which the Frobenius map multiplies the abscissa on the twist. -/
def frobeniusX : Fq2 := Fq2.xi ^ ((baseOrder - 1) / 3)

/-- The factor by which the Frobenius map multiplies the ordinate on the twist. -/
def frobeniusY : Fq2 := Fq2.xi ^ ((baseOrder - 1) / 2)

/-- The Frobenius map on the twist. -/
def frobenius (q : G2) : G2 := ⟨q.x.conj * frobeniusX, q.y.conj * frobeniusY, q.z.conj⟩

/-- The Miller loop with the two closing lines through images of the point. -/
def millerLoop (q : G2) (p : G1) : Fq12 :=
  let (f, r) := loopDigits.foldl (round q p) (Value.one, q)
  let q₁ := frobenius q
  let q₂ := (frobenius q₁).neg
  ((f.mul (line r q₁ p)).mul (line (r.add q₁) q₂ p)).toFq12

/-- The final power. -/
def finalPower (f : Fq12) : Fq12 := f ^ ((Nat.pow baseOrder 12 - 1) / scalarOrder)

/-- The loop value of two points that were checked to lie on their curves; a point at infinity is
paired to one. -/
def miller (q : G2) (p : G1) : Except PairingError Fq12 :=
  if ¬ q.OnCurve G2.coefficient then .error .offTwist
  else if ¬ p.OnCurve G1.coefficient then .error .offCurve
  else if p.isInfinity || q.isInfinity then .ok 1
  else .ok (millerLoop q p)

end Ate

instance : Pairing G1 G2 Fq12 where
  miller := Ate.miller
  one := 1
  mul := (· * ·)
  isUnit f := Ate.finalPower f = 1

end MerkleSnark
