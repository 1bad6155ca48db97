import MerkleSnark.Curve.Coordinate
import MerkleSnark.Curve.Group
import MerkleSnark.Curve.Point

/-!
# The curve bn128

The first group lies on `y² = x³ + 3` over `Fq`, the second on the sextic twist
`y² = x³ + 3 / (9 + i)` over `Fq2`.

## Main definitions

* `G1`, `G2` — the points of the two groups, with their operations.
* `G1.coefficient`, `G2.coefficient` — the constants of the two curve equations.
-/

namespace MerkleSnark

/-- Points over the prime field. -/
abbrev G1 := Point Fq

/-- Points over the quadratic extension. -/
abbrev G2 := Point Fq2

/-- The non-residue `9 + i` that defines the twist and the extension of degree six over it. -/
def Fq2.xi : Fq2 := ⟨(9 : Nat), (1 : Nat)⟩

/-- The constant of the first curve. -/
def G1.coefficient : Fq := (3 : Nat)

/-- The constant of the twist. -/
def G2.coefficient : Fq2 := ⟨(3 : Nat), 0⟩ / Fq2.xi

/-- The generator of the first group. -/
def G1.base : G1 := .ofAffine (1 : Nat) (2 : Nat)

/-- The generator of the second group. -/
def G2.base : G2 := .ofAffine
  ⟨(10857046999023057135944570762232829481370756359578518086990519993285655852781 : Nat),
    (11559732032986387107991004021392285783925812861821192530917403151452391805634 : Nat)⟩
  ⟨(8495653923123431417604973247489272438418190587263600148770280649306958101930 : Nat),
    (4082367875863433681332203403145435568316851327593401208105741076214120093531 : Nat)⟩

instance : PointGroup G1 where
  generator := G1.base
  infinity := .infinity
  add p q := p.add q
  double p := p.double
  neg p := p.neg
  isInfinity p := p.isInfinity

instance : PointGroup G2 where
  generator := G2.base
  infinity := .infinity
  add p q := p.add q
  double p := p.double
  neg p := p.neg
  isInfinity p := p.isInfinity

end MerkleSnark
