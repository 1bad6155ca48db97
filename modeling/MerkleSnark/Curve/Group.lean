import MerkleSnark.Field.Scalar

/-!
# Groups of points

The proof system uses its points through a handful of operations.  They are collected in a class, so
that everything above the curve is stated for any group with these operations; the laws of an
abelian group hold only up to the representation of a point, and are no part of the class.

## Main definitions

* `PointGroup` — the operations.
* `PointGroup.multiple` — a multiple by double-and-add.
* `PointGroup.smul` — a multiple by a scalar.
-/

namespace MerkleSnark

/-- The operations of a group of prime order with a distinguished generator. -/
class PointGroup (P : Type) where
  /-- The distinguished generator. -/
  generator : P
  /-- A representative of the neutral element. -/
  infinity : P
  /-- The sum. -/
  add : P → P → P
  /-- Twice a point. -/
  double : P → P
  /-- The opposite. -/
  neg : P → P
  /-- Whether a point represents the neutral element. -/
  isInfinity : P → Bool

namespace PointGroup

variable {P : Type} [PointGroup P]

/-- Double-and-add from the lowest bit of the factor; the addition of an odd factor comes last. -/
@[specialize] def multiple (p : P) (n : Nat) : P :=
  if n = 0 then infinity
  else if n = 1 then p
  else if n % 2 = 0 then multiple (double p) (n / 2)
  else add (multiple (double p) (n / 2)) p
termination_by n
decreasing_by all_goals omega

/-- The multiple by a scalar. -/
@[inline] def smul (k : Fr) (p : P) : P := multiple p k.val

/-- Whether the order of a point divides the order of the group. -/
def inSubgroup (p : P) : Bool := isInfinity (multiple p scalarOrder)

end PointGroup

end MerkleSnark
