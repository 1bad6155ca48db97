import MerkleSnark.Constraint.System
import MerkleSnark.Polynomial.Domain

/-!
# Quadratic arithmetic programs

Constraint `j` belongs to the point `ωʲ` of an evaluation domain.  The coefficients of wire `i` in
the left, right and product sides of all constraints are then the values of three polynomials `Aᵢ`,
`Bᵢ`, `Cᵢ` on the domain.  Key generation evaluates these polynomials at a secret point through the
Lagrange basis; a prover interpolates the three sums over all wires and divides
`A · B - C` by the polynomial that vanishes on the domain.

## Main definitions

* `Sides` — three values, one for each side of a constraint.
* `wirePolynomials?` — all `Aᵢ(τ)`, `Bᵢ(τ)`, `Cᵢ(τ)`.
* `constraintValues?` — the values of the sides of every constraint, padded to the domain.
* `quotient?` — the coefficients of the quotient.
-/

namespace MerkleSnark.Groth16

open MerkleSnark.Polynomial

/-- Three values of one kind, one for each side of a constraint. -/
structure Sides (α : Type) where
  /-- For the left factor. -/
  a : α
  /-- For the right factor. -/
  b : α
  /-- For the product. -/
  c : α
  deriving DecidableEq, Repr

/-- Why a program cannot be evaluated. -/
inductive ProgramError
  /-- There is no domain, or the point lies on it. -/
  | domain (cause : DomainError)
  /-- The wire values do not fit the system. -/
  | assignment (cause : AssignmentError)
  /-- The domain has fewer points than there are constraints. -/
  | domainTooSmall
  deriving DecidableEq, Repr

/-- The wording of a failure. -/
def ProgramError.message : ProgramError → String
  | .domain cause => cause.message
  | .assignment cause => cause.message
  | .domainTooSmall => "the domain has fewer points than there are constraints"

/-- Adds `l` times the coefficient of every wire of `x` to the wire's place. -/
def accumulate (totals : Array Fr) (x : LinearCombination) (l : Fr) : Array Fr :=
  x.terms.foldl (fun totals t => totals.modify t.1 (· + t.2 * l)) totals

/-- For every wire, the sum over the combinations of its coefficient times the basis value. -/
def columnSums (numVariables : Nat) (rows : List LinearCombination) (basis : List Fr) : Array Fr :=
  (rows.zip basis).foldl (fun totals p => accumulate totals p.1 p.2)
    (Array.replicate numVariables 0)

/-- The values `Aᵢ(τ)`, `Bᵢ(τ)`, `Cᵢ(τ)` for every wire, from the Lagrange basis at `τ`. -/
def wirePolynomials? (cs : ConstraintSystem) (basis : List Fr) :
    Except ProgramError (Sides (List Fr)) :=
  if basis.length < cs.numConstraints then .error .domainTooSmall
  else if cs.constraints.all (·.boundedBy cs.numVariables) = false then
    .error (.assignment .missingWire)
  else
    let sums (side : Constraint → LinearCombination) :=
      (columnSums cs.numVariables (cs.constraints.map side) basis).toList
    .ok ⟨sums (·.a), sums (·.b), sums (·.c)⟩

/-- The values of one side of every constraint, padded with zeros to the size of the domain. -/
def sideValues? (w : Array Fr) (rows : List LinearCombination) (size : Nat) :
    Option (List Fr) := do
  return (← rows.mapM (·.evalAt? w)) ++ List.replicate (size - rows.length) 0

/-- The values of the three sides of every constraint. -/
def constraintValues? (cs : ConstraintSystem) (w : Array Fr) (size : Nat) :
    Except ProgramError (Sides (List Fr)) :=
  let side (f : Constraint → LinearCombination) := sideValues? w (cs.constraints.map f) size
  match side (·.a), side (·.b), side (·.c) with
  | some a, some b, some c => .ok ⟨a, b, c⟩
  | _, _, _ => .error (.assignment .missingWire)

/-- The coefficients of `(A · B - C) / (xⁿ - 1)`, from the values of `A`, `B` and `C` on the domain.
The division takes place on a coset, where the divisor is a constant other than zero.  The quotient
has degree at most `n - 2`, so the last coefficient is dropped. -/
def quotientOf (omega : Fr) (size : Nat) (values : Sides (List Fr)) : List Fr :=
  let onCoset (v : List Fr) := cosetFft omega Fr.generator (ifft omega v)
  let scale := (vanishing size Fr.generator)⁻¹
  let ab := List.zipWith (· * ·) (onCoset values.a) (onCoset values.b)
  let quotients := List.zipWith (fun p c => (p - c) * scale) ab (onCoset values.c)
  (cosetIfft omega Fr.generator quotients).take (size - 1)

/-- The quotient for the wire values of a system. -/
def quotient? (cs : ConstraintSystem) (w : Array Fr) (size : Nat) :
    Except ProgramError (List Fr) := do
  let omega ← (Fr.rootOfUnity? size).mapError .domain
  return quotientOf omega size (← constraintValues? cs w size)

end MerkleSnark.Groth16
