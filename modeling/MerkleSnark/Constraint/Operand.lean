import MerkleSnark.Constraint.LinearCombination

/-!
# Operands of linear arithmetic

An expression for a wire mixes linear combinations with plain numbers.  A number stays an integer
among numbers, and becomes a constant once it meets a combination.

## Main definitions

* `Operand` — a combination or a number.
* `Operand.toCombination` — the combination that an operand stands for.
* `Operand.mul?` — the product, which is linear only if one factor is a number.
-/

namespace MerkleSnark

/-- What linear arithmetic works on. -/
inductive Operand
  /-- A linear combination. -/
  | combination (x : LinearCombination)
  /-- A number, not reduced. -/
  | number (n : Int)
  deriving DecidableEq, Repr

namespace Operand

/-- The combination in an operand that is one. -/
def combination? : Operand → Option LinearCombination
  | .combination x => some x
  | .number _ => none

/-- The combination that an operand stands for. -/
def toCombination : Operand → LinearCombination
  | .combination x => x
  | .number n => .const (.ofInt _ n)

instance : Add Operand where
  add
    | .number m, .number n => .number (m + n)
    | x, y => .combination (x.toCombination + y.toCombination)

instance : Neg Operand where
  neg
    | .number n => .number (-n)
    | .combination x => .combination (-x)

instance : Sub Operand where
  sub
    | .number m, .number n => .number (m - n)
    | x, y => .combination (x.toCombination - y.toCombination)

/-- The product, unless both factors are combinations. -/
def mul? : Operand → Operand → Option Operand
  | .number m, .number n => some (.number (m * n))
  | .combination x, .number n | .number n, .combination x =>
    some (.combination (x.scale (.ofInt _ n)))
  | .combination _, .combination _ => none

/-- A readable form. -/
def describe : Operand → String
  | .combination x => x.describe
  | .number n => toString n

@[simp] theorem combination?_combination (x : LinearCombination) :
    (Operand.combination x).combination? = some x := rfl
@[simp] theorem toCombination_combination (x : LinearCombination) :
    (Operand.combination x).toCombination = x := rfl

end Operand

end MerkleSnark
